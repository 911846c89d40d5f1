import AetherClient.PtrCollect

set_option autoImplicit false

namespace AetherClient
open RefGraph

namespace Heap

section Held
variable {h : Heap} {p : PtrSlot} {x a b c : Address}

theorem mem_outside_of_free (hb : b ∈ targets (h.clear p.address).freePtrs) :
    b ∈ h.outside p x := by
  unfold outside outerSlots
  rw [targets_append]
  exact List.mem_append_left _ hb

theorem Exact.mem_outside_of_succ (hg : h.Exact) (hc : c ∈ h.addresses) (hout : c ∉ h.below x)
    (hb : b ∈ (h.clear p.address).succ c) : b ∈ h.outside p x :=
  (mem_targets_outerSlots (hg.toWellFormed.clear _)).2
    (Or.inr ⟨c, by rwa [addresses_clear], hout, hb⟩)

theorem Exact.not_mem_slots_clear (hg : h.Exact) (hp : p ∈ h.slots) (hx : p.target = some x)
    (hone : (h.refCounter x).toNat = 1) : x ∉ targets (h.clear p.address).slots := by
  have hcnt := hg.counter x (hg.mem_below hp hx).1
  rw [count_clearAt hg.slots hp hx x, if_pos rfl, ← slots_clear] at hcnt
  exact List.count_eq_zero.1 (by omega)

structure Unheld (h : Heap) (p : PtrSlot) (x : Address) : Prop where
  outside : x ∉ h.outside p x
  kept : ∀ c, h.Kept p x c → x ∉ (h.clear p.address).succ c

theorem Exact.unheld_of_single (hg : h.Exact) (hp : p ∈ h.slots) (hx : p.target = some x)
    (hone : (h.refCounter x).toNat = 1) : h.Unheld p x := by
  have hnone := hg.not_mem_slots_clear hp hx hone
  refine ⟨fun hm => hnone ?_, fun c _ hm => hnone (succ_subset_slots _ c hm)⟩
  exact (outerSlots_sublist.filterMap _).subset hm

theorem Exact.unheld_of_not_reachIn (hg : h.Exact) (hp : p ∈ h.slots) (hx : p.target = some x)
    (hr : ¬ ReachIn h.succ (h.below x) (h.outside p x) x) : h.Unheld p x := by
  have hxS := (hg.mem_below hp hx).2
  refine ⟨fun hm => hr (.start hm hxS), fun c hc hm => hr ?_⟩
  exact (ReachIn.mono hc (Finset.erase_subset x _)).step (succ_clear_subset hm) hxS

theorem Exact.unheld_of_takes {news : List Address} (hg : h.Exact) (hp : p ∈ h.slots)
    (hx : p.target = some x) (hin : ¬ h.Inside p x) (ht : h.Takes p x news) (hmem : x ∈ news) :
    h.Unheld p x := by
  classical
  rcases ht.sound hmem with hone | ⟨seen, hc, hle⟩
  · exact hg.unheld_of_single hp hx hone
  · refine hg.unheld_of_not_reachIn hp hx (hc.not_reachIn hle ?_)
    intro a ha
    have hcnt := hg.count_below hp hx ha
    by_cases he : a = x
    · subst he
      simp only [hin, not_false_eq_true, and_self, if_true] at hcnt
      rw [List.count_cons_self]
      exact hcnt
    · simp only [he, false_and, if_false] at hcnt
      rw [List.count_cons_of_ne (Ne.symm he)]
      exact hcnt

theorem Exact.kept_of_reachIn (hg : h.Exact) (hun : h.Unheld p x) {starts : List Address}
    (hstarts : ∀ s ∈ starts, s ∈ h.outside p x ∨
      ∃ c, h.Kept p x c ∧ s ∈ (h.clear p.address).succ c)
    (hr : ReachIn (h.clear p.address).succ h.addresses starts a) :
    a ∉ h.below x ∨ h.Kept p x a := by
  classical
  -- both kinds of reference keep what they lead to
  have hfrom : ∀ d, (d ∈ h.outside p x ∨ ∃ c, h.Kept p x c ∧ d ∈ (h.clear p.address).succ c) →
      d ∉ h.below x ∨ h.Kept p x d := by
    rintro d (hd | ⟨c, hc, hd⟩)
    · by_cases hS : d ∈ h.below x
      · have hne : d ≠ x := fun he => hun.outside (he ▸ hd)
        exact Or.inr (.start hd (Finset.mem_erase.2 ⟨hne, hS⟩))
      · exact Or.inl hS
    · have hne : d ≠ x := fun he => hun.kept c hc (he ▸ hd)
      have hcS := (Finset.mem_erase.1 (ReachIn.mem hc)).2
      have hdS := hg.below_closed hcS (succ_clear_subset hd)
      exact Or.inr (ReachIn.step hc (succ_clear_subset hd) (Finset.mem_erase.2 ⟨hne, hdS⟩))
  -- the node itself is carried along, for the edges that lead in from outside
  have hboth : a ∈ h.addresses ∧ (a ∉ h.below x ∨ h.Kept p x a) := by
    refine hr.of_closed (P := fun c => c ∈ h.addresses ∧ (c ∉ h.below x ∨ h.Kept p x c))
      (fun s hs hL => ⟨hL, hfrom s (hstarts s hs)⟩) ?_
    rintro c ⟨hcV, hc⟩ d hd hL
    refine ⟨hL, hfrom d ?_⟩
    rcases hc with hout | hk
    · exact Or.inl (hg.mem_outside_of_succ hcV hout hd)
    · exact Or.inr ⟨c, hk, hd⟩
  exact hboth.2

theorem Exact.kept_of_reachable (hg : h.Exact) (hun : h.Unheld p x)
    (hr : (h.clear p.address).Reachable a) : a ∉ h.below x ∨ h.Kept p x a := by
  unfold Reachable at hr
  rw [addresses_clear] at hr
  exact hg.kept_of_reachIn hun (fun s hs => Or.inl (mem_outside_of_free hs)) hr

theorem not_kept_self : ¬ h.Kept p x x := fun hk => (Finset.mem_erase.1 (ReachIn.mem hk)).1 rfl

/-- A `Ptr` that is not a member of an object below its own target takes no reachable object
with it, even if entries of the cycle detector coincide or classes report too little. -/
theorem Exact.not_reachable_of_mem_deletedBy (hg : h.Exact) (hp : p ∈ h.slots)
    (hx : p.target = some x) (hin : ¬ h.Inside p x) (ha : a ∈ h.deletedBy p) :
    ¬ (h.clear p.address).Reachable a := by
  intro hr
  have ht := hg.deletedBy_takes hp hx
  have hun := hg.unheld_of_takes hp hx hin ht (ht.target a ha)
  obtain ⟨haS, hgone⟩ := ht.gone a ha
  have hk := (hg.kept_of_reachable hun hr).resolve_left (not_not_intro haS)
  rcases hgone with rfl | hnot
  · exact not_kept_self hk
  · exact hnot hk

end Held

section Safety
variable {h : Heap} {p : PtrSlot} {x : Address}

theorem Exact.unheld_of_noWayBack (hg : h.Exact) (hp : p ∈ h.slots) (hx : p.target = some x)
    (hout : x ∉ h.outside p x) (hback : h.NoWayBack p x) : h.Unheld p x := by
  have hxV := (hg.mem_below hp hx).1
  refine ⟨hout, fun c hc hm => ?_⟩
  obtain ⟨z, hz, hzL, hzc⟩ := ReachIn.exists_start hc
  obtain ⟨hne, hzS⟩ := Finset.mem_erase.1 hzL
  have hmem : x ∈ h.succ c := succ_clear_subset hm
  have hzc : ReachIn h.succ h.addresses [z] c :=
    hzc.mono ((Finset.erase_subset _ _).trans below_subset)
  refine hback z hzS hne hz ?_
  rcases hzc.of_singleton with rfl | hr
  · exact .start hmem hxV
  · exact hr.step hmem hxV

theorem Exact.unheld_of_letsGo (hg : h.Exact) (hp : p ∈ h.slots) (hx : p.target = some x)
    (hgo : h.LetsGo p x)
    (hok : ¬ (h.MeetsAgain p x ∧ h.Inside p x ∧ (h.outside p x).count x = 1 ∧
      h.NoWayBack p x)) : h.Unheld p x := by
  rcases hgo with hone | ⟨hmeet, hin, hout, hback⟩
  · exact hg.unheld_of_single hp hx hone
  · by_cases hi : h.Inside p x
    · exact absurd ⟨hmeet, hi, hin hi, hback⟩ hok
    · exact hg.unheld_of_noWayBack hp hx (hout hi) hback

theorem Exact.start_of_outerSlots {s : Address} (hg : h.Exact) (hp : p ∈ h.slots)
    (hx : p.target = some x) (hd : h.DistinctEntries (h.below x)) (hshow : h.CyclesShown x)
    (hgo : h.LetsGo p x)
    (hs : s ∈ targets ((h.clear p.address).outerSlots (h.deletedBy p).toFinset)) :
    s ∈ h.outside p x ∨ ∃ c, h.Kept p x c ∧ s ∈ (h.clear p.address).succ c := by
  rcases (mem_targets_outerSlots (hg.toWellFormed.clear _)).1 hs with hs | ⟨c, hc, hnot, hs⟩
  · exact Or.inl (mem_outside_of_free hs)
  · rw [addresses_clear] at hc
    by_cases hcS : c ∈ h.below x
    · rw [List.mem_toFinset, hg.mem_deletedBy_iff hp hx hd hshow] at hnot
      push Not at hnot
      exact Or.inr ⟨c, (hnot hgo hcS).2, hs⟩
    · exact Or.inl (hg.mem_outside_of_succ hc hcS hs)

/-- The `Poopa` at 16 and the `Loopa` at 48 hold each other as `Obj`s, their base class, and a
variable holds the `Poopa` as one. -/
def cycleHeldOnce : Heap where
  objects := [⟨16, 3, 2, [⟨24, 2, some 48, true⟩], true, [⟨1, 2, 0⟩]⟩,
    ⟨48, 5, 1, [⟨56, 2, some 16, true⟩], true, [⟨1, 2, 0⟩]⟩]
  freePtrs := [⟨100, 4, some 16, true⟩]

theorem cycleHeldOnce_exact : cycleHeldOnce.Exact :=
  ⟨⟨by decide, by decide⟩, by decide, by decide, by decide⟩

theorem cycleHeldOnce_distinct (x : Address) :
    cycleHeldOnce.DistinctEntries (cycleHeldOnce.below x) := by
  have hall : cycleHeldOnce.DistinctEntries cycleHeldOnce.addresses := by decide
  exact hall.mono below_subset

theorem cycleHeldOnce_shown : cycleHeldOnce.CyclesShown 16 := by
  have hmember : ∀ o ∈ cycleHeldOnce.objects, ∀ s ∈ o.members, ∀ y, s.target = some y → y ≠ 16 →
      ∀ c ∈ cycleHeldOnce.objects, c.address = y → ∀ m ∈ c.members, m.target = some 16 := by
    decide
  intro a _ o ho s hs y hy ht c hc m hm
  obtain ⟨hco, rfl⟩ := find_mem hc
  have h16 := hmember o (find_mem ho).1 s hs _ ht (Finset.mem_erase.1 hy).1 c hco rfl m hm
  refine Or.inr fun z hz hr => ?_
  obtain rfl := Option.some.inj (h16.symm.trans hz)
  obtain ⟨b, hb, hbL, -⟩ := hr.exists_start
  exact (Finset.mem_erase.1 hbL).1 (List.mem_singleton.1 hb)

def selfHolding : Heap where
  objects := [⟨16, 1, 2, [⟨16, 2, some 16, true⟩], true, []⟩]
  freePtrs := [⟨100, 2, some 16, true⟩]

def selfHoldingAsBase (ptrTypeIndex : ℕ) : Heap where
  objects := [⟨16, 3, 2, [⟨24, 2, some 16, true⟩], true, [⟨1, 2, 0⟩]⟩]
  freePtrs := [⟨100, ptrTypeIndex, some 16, true⟩]

-- the walk as an `Obj` meets no member, so that the member gives up one reference only
example : (selfHoldingAsBase 4).deletedBy ⟨24, 2, some 16, true⟩ = [] := by decide

/-- Three objects that hold each other. The entry of the second member of the object at 56
is that of the object itself. -/
def collidingEntries : Heap where
  objects := [⟨16, 57, 2, [⟨16, 24, some 56, true⟩], true, []⟩,
    ⟨40, 17, 2, [⟨40, 24, some 56, true⟩, ⟨48, 40, some 16, true⟩], true, []⟩,
    ⟨56, 48, 2, [⟨56, 36, some 40, true⟩, ⟨64, 40, some 16, true⟩], true, []⟩]
  freePtrs := [⟨1000, 36, some 40, true⟩]

-- without distinct entries a variable, too, leaves objects over, one of which still refers
-- to the deleted object
example : collidingEntries.Exact ∧
    collidingEntries.deletedBy ⟨1000, 36, some 40, true⟩ = [40] ∧
    collidingEntries.StillHeld ⟨1000, 36, some 40, true⟩ 40 :=
  ⟨⟨⟨by decide, by decide⟩, by decide, by decide, by decide⟩, by decide,
    .start (by decide) (by decide)⟩

end Safety

section Completeness
variable {h : Heap} {p : PtrSlot} {x a : Address}

theorem Exact.reachable_below (hg : h.Exact) (hp : p ∈ h.slots) (hx : p.target = some x)
    (hr : (h.clear p.address).Reachable x) (ha : a ∈ h.below x) :
    (h.clear p.address).Reachable a := by
  refine (mem_sub.1 ha).of_closed (fun s hs _ => List.mem_singleton.1 hs ▸ hr) ?_
  intro c hc d hd hL
  rcases succ_cases hg.slots hp hx hd with hd | rfl
  · exact ReachIn.step hc hd (by rwa [addresses_clear])
  · exact hr

-- a variable that holds the object as an `Obj` leaves it over
example : (selfHoldingAsBase 4).deletedBy ⟨100, 4, some 16, true⟩ = [16] ∧
    (selfHoldingAsBase 2).deletedBy ⟨100, 2, some 16, true⟩ = [] := by decide

/-- A variable holds the first object, the first the second, and the second both the first
and the third, which holds the second again. -/
def memberOfHeldObject : Heap where
  objects := [⟨16, 1, 2, [⟨16, 4, some 32, true⟩], true, []⟩,
    ⟨32, 2, 2, [⟨32, 5, some 16, true⟩, ⟨40, 6, some 48, true⟩], true, []⟩,
    ⟨48, 3, 1, [⟨48, 4, some 32, true⟩], true, []⟩]
  freePtrs := [⟨100, 5, some 16, true⟩]

end Completeness

section Collected
variable {h : Heap} {p : PtrSlot} {x a b c : Address}

theorem Exact.below_or_reachable (hg : h.Exact) (hp : p ∈ h.slots) (hx : p.target = some x)
    (hr : h.Reachable a) : a ∈ h.below x ∨ (h.clear p.address).Reachable a := by
  have hxS := (hg.mem_below hp hx).2
  refine ReachIn.of_closed (P := fun c => c ∈ h.below x ∨ (h.clear p.address).Reachable c) hr ?_ ?_
  · intro s hs hL
    obtain ⟨t, ht, hts⟩ := List.mem_filterMap.1 hs
    by_cases he : t.address = p.address
    · obtain rfl := hg.slot_eq hp (List.mem_append_left _ ht) he
      rw [hx] at hts
      exact Or.inl (Option.some.inj hts ▸ hxS)
    · refine Or.inr (.start ?_ (by rwa [addresses_clear]))
      change s ∈ targets (h.freePtrs.map (PtrSlot.clearAt p.address))
      rw [targets_clearAt]
      exact List.mem_filterMap.2 ⟨t, List.mem_filter.2 ⟨ht, by simpa using he⟩, hts⟩
  · rintro c (hc | hc) d hd hL
    · exact Or.inl (hg.below_closed hc hd)
    · rcases succ_cases hg.slots hp hx hd with hd | rfl
      · exact Or.inr (ReachIn.step hc hd (by rwa [addresses_clear]))
      · exact Or.inl hxS

theorem Exact.reachable_of_outside (hg : h.Exact) (hp : p ∈ h.slots) (hx : p.target = some x)
    (hall : ∀ a ∈ h.addresses, h.Reachable a) (hb : b ∈ h.outside p x) :
    (h.clear p.address).Reachable b := by
  have hbV : b ∈ (h.clear p.address).addresses := by
    rw [addresses_clear]
    exact hg.exist b (outside_subset hb)
  rcases (mem_targets_outerSlots (hg.toWellFormed.clear _)).1 hb with hb | ⟨c, hc, hout, hb⟩
  · exact .start hb hbV
  · rw [addresses_clear] at hc
    have hr := (hg.below_or_reachable hp hx (hall c hc)).resolve_left hout
    exact ReachIn.step hr hb hbV

theorem Exact.reachable_of_kept (hg : h.Exact) (hp : p ∈ h.slots) (hx : p.target = some x)
    (hall : ∀ a ∈ h.addresses, h.Reachable a) (hk : h.Kept p x a) :
    (h.clear p.address).Reachable a := by
  refine ReachIn.of_closed hk (fun s hs _ => hg.reachable_of_outside hp hx hall hs) ?_
  intro c hc d hd hL
  obtain ⟨hne, hdS⟩ := Finset.mem_erase.1 hL
  have hd' := (succ_cases hg.slots hp hx hd).resolve_right hne
  exact ReachIn.step hc hd' (by rw [addresses_clear]; exact below_subset hdS)

theorem Exact.succ_clear_of_not_inside (hg : h.Exact) (hp : p ∈ h.slots)
    (hin : ¬ h.Inside p x) (hc : c ∈ h.below x) : (h.clear p.address).succ c = h.succ c := by
  obtain ⟨o, hf, -⟩ := hg.find_of_mem_addresses (below_subset hc)
  obtain ⟨ho, rfl⟩ := find_mem hf
  rw [succ_clear, succ, hf]
  change targets (o.members.map (PtrSlot.clearAt p.address)) = targets o.members
  rw [map_clearAt_of_forall_ne]
  intro s hs he
  obtain rfl := hg.slot_eq hp (List.mem_append_right _ (List.mem_flatMap.2 ⟨o, ho, hs⟩)) he
  exact hin ⟨o, ho, hc, hs⟩

theorem Exact.refCounter_of_no_cycle (hg : h.Exact) (hp : p ∈ h.slots) (hx : p.target = some x)
    (hin : ¬ h.Inside p x) (hout : x ∉ h.outside p x)
    (hno : ¬ ReachIn h.succ (h.below x) (h.succ x) x) : (h.refCounter x).toNat = 1 := by
  classical
  have hxS := (hg.mem_below hp hx).2
  have hcnt := hg.count_below hp hx hxS
  have hzero := inDegree_sub_of_no_cycle hxS hno
  rw [sub_below] at hzero
  rw [List.count_eq_zero.2 hout, hzero] at hcnt
  simpa [hin] using hcnt

theorem Exact.letsGo_of_not_reachable (hg : h.Exact) (hp : p ∈ h.slots) (hx : p.target = some x)
    (hin : ¬ h.Inside p x) (hps : ShowsCycles h h.succ (h.below x) p)
    (hall : ∀ a ∈ h.addresses, h.Reachable a) (hr : ¬ (h.clear p.address).Reachable x) :
    h.LetsGo p x := by
  have hout : x ∉ h.outside p x := fun hm => hr (hg.reachable_of_outside hp hx hall hm)
  by_cases hcycle : ReachIn h.succ (h.below x) (h.succ x) x
  swap
  · exact Or.inl (hg.refCounter_of_no_cycle hp hx hin hout hcycle)
  have hmeet := hps.showsWay (hg.region hp hx) hx (hg.mem_below hp hx).2 hcycle
  refine Or.inr ⟨(hg.meetsAgain_iff hp hx).2 hmeet, fun hi => absurd hi hin, fun _ => hout,
    fun z hzS hne hz hback => hr ?_⟩
  have hzr := hg.reachable_of_outside hp hx hall hz
  -- the way back runs below `x`, where no edge has gone
  refine (ReachIn.of_closed (P := fun c => c ∈ h.below x ∧ (h.clear p.address).Reachable c)
    (hback.of_succ (below_subset hzS)) ?_ ?_).2
  · intro s hs _
    obtain rfl := List.mem_singleton.1 hs
    exact ⟨hzS, hzr⟩
  · rintro c ⟨hcS, hcr⟩ d hd hL
    refine ⟨hg.below_closed hcS hd, ReachIn.step hcr ?_ (by rwa [addresses_clear])⟩
    rwa [hg.succ_clear_of_not_inside hp hin hcS]

end Collected
end Heap
end AetherClient
