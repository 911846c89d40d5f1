import AetherClient.PtrCounts

set_option autoImplicit false

namespace AetherClient
open Relation RefGraph

namespace PtrValue

def refs (v : PtrValue) : List Address := if v.released then [] else v.target.toList

def shares (v : PtrValue) : List Address := v.target.toList

theorem refs_subset (v : PtrValue) : v.refs ⊆ v.shares := by
  unfold refs shares
  split
  · exact List.nil_subset _
  · exact List.Subset.refl _

end PtrValue

namespace Heap
variable {h : Heap} {p a : Address} {target : Option Address}

theorem slots_setTarget : (h.setTarget p target).slots = h.slots.map (PtrSlot.setAt p target) := by
  simp [Heap.slots, setTarget, List.flatMap_map, List.map_flatMap]

theorem address_setAt (s : PtrSlot) : (PtrSlot.setAt p target s).address = s.address := by
  unfold PtrSlot.setAt
  split <;> rfl

theorem find_setTarget : (h.setTarget p target).find a =
    (h.find a).map fun o => { o with members := o.members.map (PtrSlot.setAt p target) } := by
  unfold find setTarget
  rw [List.find?_map]
  rfl

theorem refCounter_setTarget : (h.setTarget p target).refCounter a = h.refCounter a := by
  rw [refCounter, find_setTarget, Option.map_map]
  rfl

theorem map_address_setTarget : (h.setTarget p target).objects.map HeapObject.address =
    h.objects.map HeapObject.address := by
  simp [setTarget, Function.comp_def]

theorem mem_addresses_setTarget : a ∈ (h.setTarget p target).addresses ↔ a ∈ h.addresses := by
  rw [Heap.addresses, Heap.addresses, map_address_setTarget]

def IsMember (h : Heap) (p a : Address) : Prop :=
  ∃ o, h.find a = some o ∧ p ∈ o.members.map PtrSlot.address

theorem edge_setTarget {b : Address} (he : (h.setTarget p target).Edge a b) :
    h.Edge a b ∨ h.IsMember p a ∧ target = some b := by
  cases hf : h.find a with
  | none =>
    rw [Edge, succ, find_setTarget, hf] at he
    cases he
  | some o =>
    have hf' : (h.setTarget p target).find a =
        some { o with members := o.members.map (PtrSlot.setAt p target) } := by
      rw [find_setTarget, hf]
      rfl
    rw [edge_of_find hf'] at he
    obtain ⟨s, hs, ht⟩ := List.mem_filterMap.mp he
    obtain ⟨t, htm, rfl⟩ := List.mem_map.mp hs
    by_cases hp : t.address = p
    · rw [PtrSlot.setAt, if_pos hp] at ht
      exact .inr ⟨⟨o, hf, hp ▸ List.mem_map_of_mem htm⟩, ht⟩
    · rw [PtrSlot.setAt, if_neg hp] at ht
      left
      rw [edge_of_find hf]
      exact List.mem_filterMap.mpr ⟨t, htm, ht⟩

theorem Acyclic.setTarget (hacyclic : h.Acyclic)
    (hback : ∀ x t, h.IsMember p x → target = some t → ¬h.Reaches t x) :
    (h.setTarget p target).Acyclic := by
  cases ht : target with
  | none =>
    intro a ha
    apply hacyclic a
    apply TransGen.lift id _ _ _ ha
    intro b c he
    obtain he | ⟨-, hnone⟩ := edge_setTarget he
    · exact he
    · cases hnone
  | some t =>
    apply acyclic_of_edges (X := fun x => h.IsMember p x) (y := t) _ hacyclic
    · exact fun x hx => hback x t hx ht
    · intro a b he
      obtain he | ⟨hm, hb⟩ := edge_setTarget he
      · exact .inl he
      · exact .inr ⟨hm, (Option.some.inj hb).symm⟩

end Heap

namespace PtrState
open Heap
variable {w : PtrState} {refs shares dying : List Address} {p a : Address} {s : PtrSlot}
  {v : PtrValue}

theorem slot_mem (hs : w.slot p = some s) : s ∈ w.heap.slots ∧ s.address = p :=
  ⟨List.mem_of_find?_eq_some hs, by simpa using List.find?_some hs⟩

theorem slot_of_mem (hn : (w.heap.slots.map PtrSlot.address).Nodup) (hs : s ∈ w.heap.slots) :
    w.slot s.address = some s := Tables.find_of_key hn hs

section Put

theorem released_put {q : Address} (hne : q ≠ p) :
    q ∈ (w.put p v).released ↔ q ∈ w.released := by
  unfold put
  split <;> simp [hne]

theorem released_put_self : p ∈ (w.put p v).released ↔ v.released = true := by
  unfold put
  split <;> simp_all

def others (w : PtrState) (p : Address) : List PtrSlot := w.heap.slots.filter fun t => t.address ≠ p

def heldByOthers (w : PtrState) (p : Address) : List Address :=
  targets ((w.others p).filter fun t => t.address ∉ w.released)

theorem slots_perm_others (hn : (w.heap.slots.map PtrSlot.address).Nodup)
    (hs : w.slot p = some s) : w.heap.slots.Perm (s :: w.others p) := by
  obtain ⟨hmem, rfl⟩ := slot_mem hs
  exact Heap.slots_perm hn hmem

theorem others_put : (w.put p v).others p = w.others p := by
  change ((w.heap.setTarget p v.target).slots.filter fun t => t.address ≠ p) = _
  rw [slots_setTarget, List.filter_map]
  have hsame : (fun t : PtrSlot => decide (t.address ≠ p)) ∘ PtrSlot.setAt p v.target =
      fun t => decide (t.address ≠ p) := by
    funext t
    simp only [Function.comp, address_setAt]
  rw [hsame]
  conv_rhs => rw [others, ← List.map_id (w.heap.slots.filter _)]
  apply List.map_congr_left
  intro t ht
  have hne : t.address ≠ p := by simpa using (List.mem_filter.mp ht).2
  exact if_neg hne

theorem heldByOthers_put : (w.put p v).heldByOthers p = w.heldByOthers p := by
  unfold heldByOthers
  rw [others_put]
  congr 1
  apply List.filter_congr
  intro t ht
  have hne : t.address ≠ p := by simpa using (List.mem_filter.mp ht).2
  simp only [released_put hne]

theorem slots_put_nodup (hn : (w.heap.slots.map PtrSlot.address).Nodup) :
    ((w.put p v).heap.slots.map PtrSlot.address).Nodup := by
  change ((w.heap.setTarget p v.target).slots.map PtrSlot.address).Nodup
  rw [slots_setTarget, List.map_map]
  have hsame : PtrSlot.address ∘ PtrSlot.setAt p v.target = PtrSlot.address := by
    funext t
    exact address_setAt t
  rw [hsame]
  exact hn

theorem slot_put (hs : w.slot p = some s) :
    (w.put p v).slot p = some { s with target := v.target } := by
  change (w.heap.setTarget p v.target).slots.find? _ = _
  rw [slots_setTarget, List.find?_map]
  have hsame : (fun t : PtrSlot => decide (t.address = p)) ∘ PtrSlot.setAt p v.target =
      fun t => decide (t.address = p) := by
    funext t
    simp only [Function.comp, address_setAt]
  have hfind : w.heap.slots.find? (fun t => decide (t.address = p)) = some s := hs
  rw [hsame, hfind, Option.map_some, PtrSlot.setAt, if_pos (slot_mem hs).2]

theorem targets_perm (hn : (w.heap.slots.map PtrSlot.address).Nodup) (hs : w.slot p = some s) :
    (targets w.heap.slots).Perm ((w.value s).shares ++ targets (w.others p)) := by
  have hperm := (slots_perm_others hn hs).filterMap PtrSlot.target
  have hcons := targets_cons s (w.others p)
  have hone : targets [s] = (w.value s).shares := by
    cases ht : s.target <;> simp [targets, PtrValue.shares, value, ht]
  rw [hone] at hcons
  rw [← hcons]
  exact hperm

theorem held_perm (hn : (w.heap.slots.map PtrSlot.address).Nodup) (hs : w.slot p = some s) :
    w.held.Perm ((w.value s).refs ++ w.heldByOthers p) := by
  have hperm := ((slots_perm_others hn hs).filter fun t =>
    decide (t.address ∉ w.released)).filterMap PtrSlot.target
  refine hperm.trans ?_
  by_cases hr : s.address ∈ w.released
  · rw [List.filter_cons_of_neg (by simpa using hr)]
    simp [PtrValue.refs, value, hr, heldByOthers, targets]
  · rw [List.filter_cons_of_pos (by simpa using hr)]
    change (targets (s :: _)).Perm _
    rw [targets_cons]
    cases ht : s.target <;> simp [targets, PtrValue.refs, value, hr, ht, heldByOthers]

theorem value_put (hs : w.slot p = some s) :
    (w.put p v).value { s with target := v.target } = v := by
  obtain ⟨-, rfl⟩ := slot_mem hs
  unfold value
  simp only
  congr 1
  · simp [put]
  · rw [decide_eq_true_iff.trans released_put_self |> Bool.eq_iff_iff.mpr]

theorem addresses_put : (w.put p v).heap.objects.map HeapObject.address =
    w.heap.objects.map HeapObject.address := map_address_setTarget

theorem mem_addresses_put : a ∈ (w.put p v).heap.addresses ↔ a ∈ w.heap.addresses :=
  mem_addresses_setTarget

theorem refCounter_put : (w.put p v).heap.refCounter a = w.heap.refCounter a :=
  refCounter_setTarget

theorem Balanced.put (hb : Balanced w (v.refs ++ refs) (v.shares ++ shares) dying)
    (hs : w.slot p = some s) (hshift : v.shift = 0) (hlive : ∀ t ∈ v.refs, w.heap.refCounter t ≠ 0)
    (hback : ∀ x t, w.heap.IsMember p x → v.target = some t → ¬w.heap.Reaches t x) :
    Balanced (w.put p v) ((w.value s).refs ++ refs) ((w.value s).shares ++ shares) dying := by
  have hn' := slots_put_nodup (p := p) (v := v) hb.slots
  have hs' := slot_put (v := v) hs
  have htargets := targets_perm hb.slots hs
  have htargets' := targets_perm hn' hs'
  rw [value_put hs, others_put] at htargets'
  have hheld := held_perm hb.slots hs
  have hheld' := held_perm hn' hs'
  rw [value_put hs, heldByOthers_put] at hheld'
  have hcount : ∀ a, ((w.value s).refs ++ refs ++ (w.put p v).held).count a =
      (v.refs ++ refs ++ w.held).count a := by
    intro a
    simp only [List.count_append, hheld.count_eq, hheld'.count_eq]
    omega
  have hall : ∀ a, ((w.value s).shares ++ shares ++ targets (w.put p v).heap.slots).count a =
      (v.shares ++ shares ++ targets w.heap.slots).count a := by
    intro a
    simp only [List.count_append, htargets.count_eq, htargets'.count_eq]
    omega
  have hmem : ∀ a, a ∈ (w.value s).shares ++ shares ++ targets (w.put p v).heap.slots ↔
      a ∈ v.shares ++ shares ++ targets w.heap.slots := by
    intro a
    rw [← List.count_pos_iff, ← List.count_pos_iff, hall a]
  constructor
  case addresses =>
    rw [addresses_put]
    exact hb.addresses
  case slots => exact hn'
  case known =>
    intro t ht
    rw [mem_addresses_put]
    apply hb.known t
    have hsub := (w.value s).refs_subset
    have hin : t ∈ refs ∨ t ∈ (w.value s).shares ++ shares ++ targets (w.put p v).heap.slots := by
      simp only [List.mem_append] at ht ⊢
      have := @hsub t
      tauto
    rw [hmem] at hin
    simp only [List.mem_append] at hin ⊢
    tauto
  case counter =>
    intro a ha
    rw [refCounter_put] at ha ⊢
    rw [hb.counter a ha, hcount]
  case unheld =>
    intro a ha
    rw [refCounter_put] at ha
    rw [hheld'.mem_iff, List.mem_append]
    rintro (hv | ho)
    · exact hlive a hv ha
    · exact hb.unheld a ha (hheld.mem_iff.mpr (List.mem_append_right _ ho))
  case manage => exact fun a => (hb.manage a).trans (hall a).symm
  case freed =>
    intro a ha
    rw [mem_addresses_put, hmem]
    exact hb.freed a ha
  case gone =>
    intro a
    rw [refCounter_put, mem_addresses_put]
    exact hb.gone a
  case once => exact hb.once
  case memberless =>
    intro a o hf ha
    rw [refCounter_put] at ha
    have hf' : (w.heap.setTarget p v.target).find a = some o := hf
    rw [find_setTarget] at hf'
    obtain ⟨c, hc, rfl⟩ := Option.map_eq_some_iff.mp hf'
    simp only
    rw [hb.memberless a c hc ha]
    rfl
  case acyclic => exact hb.acyclic.setTarget hback
  case unshifted =>
    intro q
    by_cases hq : q = p
    · rw [hq]
      simpa [PtrState.put] using hshift
    · simpa [PtrState.put, hq] using hb.unshifted q
  case unbroken => exact hb.unbroken

end Put

section Acquire

theorem toNat_add_one {x : UInt16} (h : x.toNat < 65535) : (x + 1).toNat = x.toNat + 1 := by
  rw [UInt16.toNat_add]
  exact Nat.mod_eq_of_lt (Nat.succ_lt_succ h)

theorem Balanced.incrementManage (hb : Balanced w refs shares dying) (ha : a ∈ w.heap.addresses)
    (hfree : a ∉ w.freedManagers) (hless : (w.manageCounter a).toNat < 65535) :
    Balanced (w.incrementManage a) refs (a :: shares) dying := by
  have hmanage : ∀ b, (Function.update w.manageCounter a (w.manageCounter a + 1) b).toNat =
      (a :: shares ++ targets w.heap.slots).count b := by
    intro b
    by_cases he : b = a
    · rw [he, Function.update_self, toNat_add_one hless, hb.manage a, List.cons_append,
        List.count_cons_self]
    · rw [Function.update_of_ne he, hb.manage b, List.cons_append,
        List.count_cons_of_ne (Ne.symm he)]
  unfold PtrState.incrementManage
  rw [touch_eq hfree]
  refine { hb with known := ?_, manage := hmanage, freed := ?_ }
  · intro t ht
    simp only [List.mem_append, List.mem_cons] at ht
    obtain (ht | rfl | ht) | ht := ht
    · exact hb.known t (by simp [ht])
    · exact ha
    · exact hb.known t (by simp [ht])
    · exact hb.known t (by simp [ht])
  · intro b hbf
    refine ⟨(hb.freed b hbf).1, ?_⟩
    rw [List.cons_append, List.mem_cons]
    rintro (rfl | hmem)
    · exact hfree hbf
    · exact (hb.freed b hbf).2 hmem

theorem Balanced.incrementRef (hb : Balanced w refs shares dying) (hlive : w.heap.refCounter a ≠ 0)
    (hfree : a ∉ w.freedManagers) (hless : (w.heap.refCounter a).toNat < 65535) :
    Balanced (w.incrementRef a) (a :: refs) shares dying := by
  have hmore := toNat_add_one hless
  have heq : w.incrementRef a = w.withCounter a (· + 1) := by
    rw [PtrState.incrementRef, touch_eq hfree]
    rfl
  obtain ⟨o, hf⟩ := find_of_live hlive
  obtain ⟨ho, rfl⟩ := find_mem hf
  rw [heq]
  apply hb.withCounter hlive
  · intro hz
    rw [hz] at hmore
    cases hmore
  · intro t ht
    obtain rfl | ht := List.mem_cons.mp ht
    · exact mem_addresses_iff.mpr ⟨o, ho, rfl⟩
    · exact hb.known t (by simp [ht])
  · rw [hmore, hb.counter o.address hlive, List.cons_append, List.count_cons_self]
  · exact fun b hne => List.count_cons_of_ne (Ne.symm hne)

theorem mem_held (hs : s ∈ w.heap.slots) (hr : s.address ∉ w.released) (ht : s.target = some a) :
    a ∈ w.held :=
  List.mem_filterMap.mpr ⟨s, List.mem_filter.mpr ⟨hs, by simpa using hr⟩, ht⟩

theorem mem_targets (hs : s ∈ w.heap.slots) (ht : s.target = some a) : a ∈ targets w.heap.slots :=
  List.mem_filterMap.mpr ⟨s, hs, ht⟩

theorem Balanced.live_of_held (hb : Balanced w refs shares dying) (ha : a ∈ w.held) :
    w.heap.refCounter a ≠ 0 := fun hz => hb.unheld a hz ha

def Room (w : PtrState) (target : Option Address) : Prop :=
  ∀ a ∈ target, (w.heap.refCounter a).toNat < 65535 ∧ (w.manageCounter a).toNat < 65535

theorem Balanced.acquire (hb : Balanced w refs shares dying) (hs : s ∈ w.heap.slots)
    (hr : s.address ∉ w.released) (hroom : w.Room s.target) :
    Balanced (w.acquire s.target) ((w.value s).refs ++ refs) ((w.value s).shares ++ shares)
      dying := by
  cases ht : s.target with
  | none => simpa [PtrState.acquire, PtrValue.refs, PtrValue.shares, value, ht] using hb
  | some a =>
    have hfree := hb.not_freed (List.mem_append_right shares (mem_targets hs ht))
    obtain ⟨href, hmanage⟩ := hroom a ht
    have hknown := hb.known a (List.mem_append_right _ (mem_targets hs ht))
    have hlive := hb.live_of_held (mem_held hs hr ht)
    have hshared := hb.incrementManage hknown hfree hmanage
    have hboth := hshared.incrementRef hlive hfree href
    simpa [PtrState.acquire, PtrValue.refs, PtrValue.shares, value, ht, hr] using hboth

theorem slots_acquire (target : Option Address) :
    (w.acquire target).heap.slots = w.heap.slots := by
  cases target with
  | none => rfl
  | some a => exact slots_modifyObject fun _ => rfl

theorem shrinks_acquire {target : Option Address}
    (hlive : ∀ a ∈ target, w.heap.refCounter a ≠ 0) : Shrinks w (w.acquire target) := by
  cases target with
  | none => exact .refl w
  | some a =>
    have hsame : (w.acquire (some a)).heap = (w.withCounter a (· + 1)).heap := rfl
    exact (shrinks_withCounter (hlive a rfl)).trans (.of_heap hsame rfl)

theorem refCounter_acquire {target : Option Address} (hroom : w.Room target)
    (hlive : w.heap.refCounter a ≠ 0) : (w.acquire target).heap.refCounter a ≠ 0 := by
  cases target with
  | none => exact hlive
  | some b =>
    change (w.withCounter b (· + 1)).heap.refCounter a ≠ 0
    by_cases he : a = b
    · subst he
      obtain ⟨o, hf⟩ := find_of_live hlive
      rw [refCounter_withCounter hf]
      intro hz
      have hmore := toNat_add_one (hroom a rfl).1
      rw [hz] at hmore
      cases hmore
    · rw [refCounter_withCounter_ne _ _ _ he]
      exact hlive

/-- The copy of `MoveCast` and what it gives up cancel out, even at the limits of the counters. -/
theorem passOn_eq {target : Option Address} (hfree : ∀ a ∈ target, a ∉ w.freedManagers) :
    w.passOn target = w := by
  cases target with
  | none => rfl
  | some a =>
    have hnot : a ∉ w.freedManagers := hfree a rfl
    have hheap : (w.heap.modifyObject a fun o => { o with refCounter := o.refCounter + 1 }).decrement
        a 1 = w.heap := by
      have hobject : ∀ o : HeapObject, { o with refCounter := o.refCounter + 1 - 1 } = o := by
        intro o
        rw [UInt16.add_sub_cancel]
      have hobjects : (w.heap.objects.map fun o => if o.address = a then
          { o with refCounter := o.refCounter + 1 } else o).map (fun o => if o.address = a then
          { o with refCounter := o.refCounter - 1 } else o) = w.heap.objects := by
        rw [List.map_map]
        conv_rhs => rw [← List.map_id w.heap.objects]
        apply List.map_congr_left
        intro o _
        simp only [Function.comp]
        by_cases he : o.address = a
        · rw [if_pos he, if_pos he]
          exact hobject o
        · rw [if_neg he, if_neg he, id]
      rw [Heap.decrement, modifyObject, modifyObject]
      simp only [hobjects]
    have hmanage : Function.update (Function.update w.manageCounter a (w.manageCounter a + 1)) a
        (w.manageCounter a + 1 - 1) = w.manageCounter := by
      rw [Function.update_idem, UInt16.add_sub_cancel, Function.update_eq_self]
    simp only [passOn, PtrState.acquire, Option.elim_some, PtrState.incrementManage,
      PtrState.incrementRef, decrementRef, decrementManage, touch, hnot, decide_false,
      Bool.or_false, Function.update_self, hheap, hmanage]

end Acquire

section Create

theorem Balanced.setFreePtrs {free : List PtrSlot} (hb : Balanced w refs shares dying)
    (hslots : ((free ++ w.heap.objects.flatMap HeapObject.members).map PtrSlot.address).Nodup)
    (htargets : targets free = targets w.heap.freePtrs)
    (hheld : targets (free.filter fun s => s.address ∉ w.released) =
      targets (w.heap.freePtrs.filter fun s => s.address ∉ w.released)) :
    Balanced { w with heap := { w.heap with freePtrs := free } } refs shares dying := by
  have hall : targets ({ w.heap with freePtrs := free } : Heap).slots = targets w.heap.slots := by
    rw [Heap.slots, Heap.slots, targets_append, targets_append, htargets]
  have hsame : ({ w with heap := { w.heap with freePtrs := free } } : PtrState).held = w.held := by
    unfold held
    rw [Heap.slots, Heap.slots, List.filter_append, List.filter_append, targets_append,
      targets_append, hheld]
  refine ⟨hb.addresses, hslots, ?_, ?_, ?_, ?_, ?_, hb.gone, hb.once, hb.memberless, hb.acyclic,
    hb.unshifted, hb.unbroken⟩
  · rw [hall]
    exact hb.known
  · rw [hsame]
    exact hb.counter
  · rw [hsame]
    exact hb.unheld
  · rw [hall]
    exact hb.manage
  · rw [hall]
    exact hb.freed

theorem targets_append_empty (free : List PtrSlot) (typeIndex : ℕ) :
    targets (free ++ [⟨p, typeIndex, none, true⟩]) = targets free := by
  rw [targets_append]
  exact List.append_nil _

theorem Balanced.addPtr (hb : Balanced w refs shares dying) (hfresh : w.Fresh [p]) (typeIndex : ℕ) :
    Balanced (w.addPtr p typeIndex) refs shares dying := by
  have hnew : p ∉ w.heap.slots.map PtrSlot.address := hfresh.2 p (List.mem_singleton_self p)
  apply hb.setFreePtrs
  · have hperm : (w.heap.freePtrs ++ [(⟨p, typeIndex, none, true⟩ : PtrSlot)] ++
        w.heap.objects.flatMap HeapObject.members).Perm (⟨p, typeIndex, none, true⟩ ::
          w.heap.slots) := by
      rw [List.append_assoc, List.singleton_append]
      exact List.perm_middle
    rw [(hperm.map PtrSlot.address).nodup_iff, List.map_cons, List.nodup_cons]
    exact ⟨hnew, hb.slots⟩
  · exact targets_append_empty _ _
  · rw [List.filter_append]
    by_cases hr : p ∈ w.released
    · simp [hr]
    · rw [List.filter_cons_of_pos (by simpa using hr)]
      exact targets_append_empty _ _

theorem slot_addPtr (hfresh : w.Fresh [p]) (typeIndex : ℕ) :
    (w.addPtr p typeIndex).slot p = some ⟨p, typeIndex, none, true⟩ := by
  have hnew : p ∉ w.heap.slots.map PtrSlot.address := hfresh.2 p (List.mem_singleton_self p)
  have hnone : w.heap.freePtrs.find? (fun s => decide (s.address = p)) = none := by
    rw [List.find?_eq_none]
    intro s hs
    rw [decide_eq_true_eq]
    intro he
    exact hnew (he ▸ List.mem_map_of_mem (List.mem_append_left _ hs))
  change ((w.heap.freePtrs ++ [(⟨p, typeIndex, none, true⟩ : PtrSlot)]) ++ _).find? _ = _
  rw [List.find?_append, List.find?_append, hnone]
  simp

theorem Balanced.newPtr (hb : Balanced w (v.refs ++ refs) (v.shares ++ shares) dying)
    (hfresh : w.Fresh [p]) (hshift : v.shift = 0) (hlive : ∀ t ∈ v.refs, w.heap.refCounter t ≠ 0)
    (typeIndex : ℕ) : Balanced (w.newPtr p typeIndex v) refs shares dying := by
  have hnew : p ∉ w.heap.slots.map PtrSlot.address := hfresh.2 p (List.mem_singleton_self p)
  have hput := (hb.addPtr hfresh typeIndex).put (slot_addPtr hfresh typeIndex) hshift hlive (by
    rintro x t ⟨o, hf, hp⟩
    exfalso
    apply hnew
    obtain ⟨s, hs, rfl⟩ := List.mem_map.mp hp
    apply List.mem_map_of_mem
    exact List.mem_append_right _ (List.mem_flatMap.mpr ⟨o, (find_mem hf).1, hs⟩))
  simpa [PtrState.newPtr, PtrValue.refs, PtrValue.shares, value] using hput

theorem Balanced.removePtr (hb : Balanced w refs shares dying)
    (hempty : ∀ s ∈ w.heap.freePtrs, s.address = p → s.target = none) :
    Balanced (w.removePtr p) refs shares dying := by
  have hsame : ∀ slots : List PtrSlot, (∀ s ∈ slots, s.address = p → s.target = none) →
      targets (slots.filter fun s => s.address ≠ p) = targets slots := by
    intro slots hnone
    rw [← targets_clearAt]
    congr 1
    conv_rhs => rw [← List.map_id slots]
    apply List.map_congr_left
    intro s hs
    unfold PtrSlot.clearAt
    split
    · next he =>
      have := hnone s hs he
      cases s
      cases this
      rfl
    · rfl
  apply hb.setFreePtrs
  · exact hb.slots.sublist ((List.filter_sublist.append (List.Sublist.refl _)).map _)
  · exact hsame _ hempty
  · rw [List.filter_comm]
    exact hsame _ fun s hs => hempty s (List.mem_filter.mp hs).1

section Allocate
variable {o : HeapObject}

theorem targets_emptied_members (slots : List PtrSlot) :
    targets (slots.map fun s => { s with target := none }) = [] := by
  rw [targets, List.filterMap_eq_nil_iff]
  intro s hs
  obtain ⟨t, -, rfl⟩ := List.mem_map.mp hs
  rfl

theorem slots_allocate : (w.allocate o).heap.slots =
    w.heap.slots ++ o.members.map fun s => { s with target := none } := by
  simp [Heap.slots, allocate]

theorem targets_allocate : targets (w.allocate o).heap.slots = targets w.heap.slots := by
  rw [slots_allocate, targets_append, targets_emptied_members, List.append_nil]

theorem held_allocate (hfresh : w.Fresh (o.members.map PtrSlot.address)) :
    (w.allocate o).held = w.held := by
  have hold : w.heap.slots.filter (fun s => s.address ∉ (w.allocate o).released) =
      w.heap.slots.filter fun s => s.address ∉ w.released := by
    apply List.filter_congr
    intro s hs
    have hnot : s.address ∉ o.members.map PtrSlot.address := fun hm =>
      hfresh.2 _ hm (List.mem_map_of_mem hs)
    have hmem : s.address ∈ (w.allocate o).released ↔ s.address ∈ w.released := by
      change s.address ∈ w.released.filter _ ↔ _
      rw [List.mem_filter]
      simpa using fun _ => by simpa using hnot
    simp only [hmem]
  have hnew : targets ((o.members.map fun s => { s with target := none }).filter fun s =>
      s.address ∉ (w.allocate o).released) = [] := by
    rw [targets, List.filterMap_eq_nil_iff]
    intro s hs
    obtain ⟨t, -, rfl⟩ := List.mem_map.mp (List.mem_filter.mp hs).1
    rfl
  unfold held
  rw [slots_allocate, List.filter_append, targets_append, hnew, List.append_nil, hold]

theorem mem_addresses_allocate :
    a ∈ (w.allocate o).heap.addresses ↔ a ∈ w.heap.addresses ∨ a = o.address := by
  simp [Heap.addresses, allocate, or_comm]

theorem find_allocate_ne (hne : a ≠ o.address) :
    (w.allocate o).heap.find a = w.heap.find a := by
  unfold Heap.find allocate
  simp [List.find?_append, Ne.symm hne]

theorem find_allocate (hnew : o.address ∉ w.heap.addresses) :
    (w.allocate o).heap.find o.address = some { o with
      refCounter := 1, members := o.members.map fun s => { s with target := none } } := by
  have hnone : w.heap.objects.find? (fun c => decide (c.address = o.address)) = none := by
    rw [List.find?_eq_none]
    intro c hc
    rw [decide_eq_true_eq]
    intro he
    exact hnew (mem_addresses_iff.mpr ⟨c, hc, he⟩)
  unfold Heap.find allocate
  simp [List.find?_append, hnone]

theorem refCounter_allocate_ne (hne : a ≠ o.address) :
    (w.allocate o).heap.refCounter a = w.heap.refCounter a := by
  rw [refCounter, find_allocate_ne hne, refCounter]

theorem refCounter_allocate (hnew : o.address ∉ w.heap.addresses) :
    (w.allocate o).heap.refCounter o.address = 1 := refCounter_of_find (find_allocate hnew)

theorem refCounter_new (hnew : o.address ∉ w.heap.addresses) : w.heap.refCounter o.address = 0 := by
  by_contra hlive
  obtain ⟨c, hf⟩ := find_of_live hlive
  exact hnew (mem_addresses_iff.mpr ⟨c, find_mem hf⟩)

theorem edge_allocate {b : Address} (hnew : o.address ∉ w.heap.addresses)
    (he : (w.allocate o).heap.Edge a b) : w.heap.Edge a b := by
  by_cases ha : a = o.address
  · subst ha
    rw [edge_of_find (find_allocate hnew)] at he
    simp only [targets_emptied_members] at he
    cases he
  · rw [Edge, succ, find_allocate_ne ha] at he
    exact he

theorem Balanced.allocate (hb : Balanced w refs shares dying)
    (hnew : o.address ∉ w.heap.addresses) (hfresh : w.Fresh (o.members.map PtrSlot.address)) :
    Balanced (w.allocate o) (o.address :: refs) (o.address :: shares) dying := by
  have hunknown : o.address ∉ refs ++ shares ++ targets w.heap.slots := fun h =>
    hnew (hb.known _ h)
  have hheld : o.address ∉ w.held := hb.unheld _ (refCounter_new hnew)
  simp only [List.mem_append, not_or] at hunknown
  constructor
  case addresses =>
    have hsplit : (w.allocate o).heap.objects.map HeapObject.address =
        w.heap.objects.map HeapObject.address ++ [o.address] := by simp [PtrState.allocate]
    rw [hsplit, (List.perm_append_singleton _ _).nodup_iff, List.nodup_cons]
    refine ⟨fun hm => hnew ?_, hb.addresses⟩
    exact List.mem_toFinset.mpr hm
  case slots =>
    have hsame : (o.members.map fun s => { s with target := none }).map PtrSlot.address =
        o.members.map PtrSlot.address := by simp [Function.comp_def]
    rw [slots_allocate, List.map_append, hsame]
    exact hb.slots.append hfresh.1 fun q hq hm => hfresh.2 q hm hq
  case known =>
    intro t ht
    rw [mem_addresses_allocate]
    simp only [targets_allocate, List.mem_append, List.mem_cons] at ht
    by_cases he : t = o.address
    · exact .inr he
    · left
      apply hb.known t
      simp only [List.mem_append]
      tauto
  case counter =>
    intro a ha
    rw [held_allocate hfresh]
    by_cases he : a = o.address
    · subst he
      have hzero : (refs ++ w.held).count o.address = 0 := by
        rw [List.count_eq_zero, List.mem_append]
        tauto
      rw [refCounter_allocate hnew, List.cons_append, List.count_cons_self, hzero]
      rfl
    · rw [refCounter_allocate_ne he] at ha ⊢
      rw [hb.counter a ha, List.cons_append, List.count_cons_of_ne (Ne.symm he)]
  case unheld =>
    intro a ha
    rw [held_allocate hfresh]
    by_cases he : a = o.address
    · rw [he]
      exact hheld
    · rw [refCounter_allocate_ne he] at ha
      exact hb.unheld a ha
  case manage =>
    intro a
    rw [targets_allocate]
    by_cases he : a = o.address
    · subst he
      have hzero : (shares ++ targets w.heap.slots).count o.address = 0 := by
        rw [List.count_eq_zero, List.mem_append]
        tauto
      rw [List.cons_append, List.count_cons_self, hzero]
      simp [PtrState.allocate]
    · rw [List.cons_append, List.count_cons_of_ne (Ne.symm he), ← hb.manage a]
      simp [PtrState.allocate, he]
  case freed =>
    intro a ha
    obtain ⟨hmem, hnot⟩ := hb.freed a ha
    rw [mem_addresses_allocate, targets_allocate, List.cons_append, List.mem_cons]
    refine ⟨.inl hmem, ?_⟩
    rintro (rfl | h)
    · exact hnew hmem
    · exact hnot h
  case gone =>
    intro a
    by_cases he : a = o.address
    · subst he
      rw [refCounter_allocate hnew]
      exact ⟨fun h => absurd ((hb.gone _).mp h).1 hnew, fun h => absurd h.2 (by decide)⟩
    · rw [refCounter_allocate_ne he, mem_addresses_allocate, or_iff_left he]
      exact hb.gone a
  case once => exact hb.once
  case memberless =>
    intro a c hf ha
    by_cases he : a = o.address
    · rw [he, refCounter_allocate hnew] at ha
      cases ha
    · rw [find_allocate_ne he] at hf
      rw [refCounter_allocate_ne he] at ha
      exact hb.memberless a c hf ha
  case acyclic =>
    intro a ha
    exact hb.acyclic a (TransGen.lift id (fun _ _ he => edge_allocate hnew he) _ _ ha)
  case unshifted =>
    intro q
    simp [PtrState.allocate, hb.unshifted q]
  case unbroken => exact hb.unbroken

end Allocate

end Create
end PtrState
end AetherClient
