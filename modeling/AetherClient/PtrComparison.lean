import AetherClient.PtrTraversal

set_option autoImplicit false

namespace AetherClient
open RefGraph

namespace Heap

/-- The map describes the references `edges`, with one more to `y`, which is given up. -/
structure Counted (h : Heap) (L : Finset Address) (y : Address) (m : ObjMap)
    (edges : List (Address × Address)) : Prop where
  nodup : m.pointers.Nodup
  refs : ∀ t ∈ m, t.refCount = (h.refCounter t.pointer).toNat
  inside : ∀ e ∈ edges, e.1 ∈ L ∧ e.2 ∈ L ∧ e.1 ∈ m.pointers
  pointers : ∀ a, a ∈ m.pointers ↔ a = y ∨ ∃ x, (x, a) ∈ edges
  reached : ∀ a, m.reached a = (if a = y then 1 else 0) + (edges.map Prod.snd).count a
  children : ∀ x b, b ∈ m.childrenOf x ↔ (x, b) ∈ edges

section Counted
variable {h : Heap} {succ : Address → List Address} {L : Finset Address} {y : Address}

theorem Region.succ_eq {o : HeapObject} (hw : h.WellFormed) (hR : Region h succ L)
    (ho : o ∈ h.objects) (hL : o.address ∈ L) : targets o.members = succ o.address := by
  obtain ⟨c, hf, hsucc⟩ := hR.objects _ hL
  obtain rfl := Option.some.inj ((hw.find_of_mem ho).symm.trans hf)
  exact hsucc

theorem Region.succ_eq_nil {o : HeapObject} (hw : h.WellFormed) (hR : Region h succ L)
    (ho : o ∈ h.objects) (hL : o.address ∈ L) (hv : ¬ o.hasVisit = true) :
    succ o.address = [] := by
  rw [← hR.succ_eq hw ho hL]
  have hnil : o.members = [] := by
    rw [List.eq_nil_iff_forall_not_mem]
    intro s hs
    exact hv (hw.reported o ho s hs).2
  rw [hnil]
  rfl

section Places
variable {places : List Place} {n : Place} {a b x : Address}

theorem mem_edges (hw : h.WellFormed) (hR : Region h succ L) (hn : n ∈ h.places L) :
    (x, b) ∈ h.edges n ↔ x = n.address ∧ b ∈ targets n.part.members ∧ b ∈ L := by
  obtain ⟨ho, hL, hpart⟩ := mem_places.1 hn
  unfold edges slotEdges targets
  simp only [List.mem_map, List.mem_filterMap, Prod.mk.injEq]
  constructor
  · rintro ⟨c, ⟨s, hs, hg⟩, rfl, rfl⟩
    have hsc := HeapObject.mem_members_iff.2 ⟨_, hpart, hs⟩
    exact ⟨rfl, ⟨s, hs, (get_eq_some.1 hg).1⟩, (hR.get_mem hw ho hL hsc hg).2⟩
  · rintro ⟨rfl, ⟨s, hs, ht⟩, hbL⟩
    exact ⟨b, ⟨s, hs, get_eq_some.2 ⟨ht, hR.live b hbL⟩⟩, rfl, rfl⟩

theorem successors_flatMap (places : List Place) (a : Address) :
    successors (places.flatMap h.edges) a =
      (((places.filter fun n => n.address = a).map Place.part).flatMap
        ObjectPart.members).filterMap h.get := by
  induction places with
  | nil => rfl
  | cons n rest ih =>
    have hone : successors (h.edges n) a =
        if n.address = a then n.part.members.filterMap h.get else [] := by
      by_cases ha : n.address = a <;>
        simp [successors, edges, slotEdges, List.filter_map, ha, Function.comp_def]
    have happ : successors ((n :: rest).flatMap h.edges) a =
        successors (h.edges n) a ++ successors (rest.flatMap h.edges) a := by
      simp [successors]
    rw [happ, hone, ih, List.filter_cons]
    by_cases ha : n.address = a <;> simp [ha, List.filterMap_append]

theorem parts_subperm {o : HeapObject} (hw : h.WellFormed) (ho : o ∈ h.objects)
    (hn : places.Nodup) (hp : ∀ n ∈ places, n ∈ h.places L) :
    ((places.filter fun n => n.address = o.address).map Place.part).Subperm o.parts := by
  have hobj : ∀ n ∈ places.filter fun n => n.address = o.address, n.object = o := by
    intro n hn
    obtain ⟨hn, ha⟩ := List.mem_filter.1 hn
    have hf := hw.find_of_mem (mem_places.1 (hp n hn)).1
    rw [show n.object.address = o.address from of_decide_eq_true ha, hw.find_of_mem ho] at hf
    exact (Option.some.inj hf).symm
  refine List.subperm_of_subset ((hn.filter _).map_on ?_) ?_
  · intro n hn n' hn' he
    obtain ⟨c, part⟩ := n
    obtain ⟨c', part'⟩ := n'
    obtain rfl : c = o := hobj _ hn
    obtain rfl : c' = c := hobj _ hn'
    exact congrArg _ he
  · intro part hpart
    obtain ⟨n, hn, rfl⟩ := List.mem_map.1 hpart
    rw [← hobj n hn]
    exact (mem_places.1 (hp n (List.mem_filter.1 hn).1)).2.2

theorem count_le_succ (hw : h.WellFormed) (hR : Region h succ L) (hn : places.Nodup)
    (hp : ∀ n ∈ places, n ∈ h.places L) (ha : a ∈ L) (b : Address) :
    (successors (places.flatMap h.edges) a).count b ≤ (succ a).count b := by
  obtain ⟨o, hf, hsucc⟩ := hR.objects a ha
  obtain ⟨ho, rfl⟩ := find_mem hf
  obtain ⟨l, hl, hle⟩ := parts_subperm hw ho hn hp
  rw [successors_flatMap, ← ((hl.flatMap_right _).filterMap _).count_eq, ← hsucc]
  refine (((hle.flatMap _).filterMap _).count_le b).trans ?_
  rw [(o.flatMap_parts_perm.filterMap _).count_eq, filterMap_get]
  exact List.filter_sublist.count_le b

theorem count_eq_succ {o : HeapObject} (hw : h.WellFormed) (hR : Region h succ L)
    (hd : h.DistinctEntries L) (hn : places.Nodup) (hp : ∀ n ∈ places, n ∈ h.places L)
    (ho : o ∈ h.objects) (hL : o.address ∈ L)
    (hall : ∀ part ∈ o.parts, (⟨o, part⟩ : Place) ∈ places) (hb : b ∈ L) :
    (successors (places.flatMap h.edges) o.address).count b = (succ o.address).count b := by
  have hback : o.parts.Subperm
      ((places.filter fun n => n.address = o.address).map Place.part) := by
    refine List.subperm_of_subset (hd.nodup_parts ho hL).of_map fun part hpart => ?_
    exact List.mem_map.2 ⟨_, List.mem_filter.2 ⟨hall part hpart, by simp [Place.address]⟩, rfl⟩
  have hperm := (parts_subperm hw ho hn hp).antisymm hback
  rw [successors_flatMap, ((hperm.flatMap_right _).filterMap _).count_eq,
    (o.flatMap_parts_perm.filterMap _).count_eq, filterMap_get, hR.succ_eq hw ho hL,
    List.count_filter]
  simpa using hR.live b hb

end Places

/-- From the members that the class of the `Ptr` reports a way leads back to `y`. -/
def ShowsWay (h : Heap) (succ : Address → List Address) (L : Finset Address) (ptrTypeIndex : ℕ)
    (y : Address) : Prop :=
  ∃ o, h.find y = some o ∧ ReachIn succ L (targets (o.shownTo ptrTypeIndex)) y

theorem Ready.entered_all {st : VisitState} {o : HeapObject} (hr : Ready h L st)
    (hd : h.DistinctEntries L) (ho : o ∈ h.objects) (hL : o.address ∈ L)
    (hv : o.entry ∈ st.cycleDetector.visitedObjects) {part : ObjectPart}
    (hpart : part ∈ o.parts) : part.entry o.address ∈ st.cycleDetector.visitedObjects := by
  obtain ⟨todo, done, hparts, htodo, hdone⟩ := hr.split hd o ho hL
  obtain ⟨members, bases, hcons⟩ :=
    HeapObject.splitMembers_eq_cons o.typeIndex o.bases o.members
  cases todo with
  | nil => exact hdone part (by rwa [hparts] at hpart)
  | cons first rest =>
    rw [HeapObject.parts, hcons, List.cons_append, List.cons.injEq] at hparts
    obtain ⟨rfl, -⟩ := hparts
    exact absurd hv (htodo _ List.mem_cons_self)

/-- What the walk of `DecrementGraph` has recorded. With distinct entries, and if it is shown a way
back, it is all that is below the start; if it is shown none, nothing leads to the start. -/
structure Records (h : Heap) (succ : Address → List Address) (L : Finset Address)
    (ptrTypeIndex : ℕ) (y : Address) (edges : List (Address × Address)) : Prop where
  le : ∀ a ∈ L, ∀ b, (successors edges a).count b ≤ (succ a).count b
  below : ∀ a ∈ L, a ∉ sub succ L y → successors edges a = []
  all : h.DistinctEntries L → ShowsWay h succ L ptrTypeIndex y →
    ∀ a ∈ sub succ L y, ∀ b ∈ L, (successors edges a).count b = (succ a).count b
  none : ¬ ShowsWay h succ L ptrTypeIndex y → ∀ x, (x, y) ∉ edges

section Root
variable {o : HeapObject} {ptrTypeIndex : ℕ} {own : List ObjectPart} {st st' : VisitState}
  {news : List Place}

structure RootWalk (h : Heap) (succ : Address → List Address) (L : Finset Address)
    (ptrTypeIndex : ℕ) (o : HeapObject) (own : List ObjectPart) (st st' : VisitState)
    (news : List Place) : Prop where
  shown : own ⊆ o.partsOf ptrTypeIndex
  full : h.DistinctEntries L → own = o.partsOf ptrTypeIndex
  reach : ∀ n ∈ news,
    ReachIn succ L ((own.reverse.flatMap ObjectPart.members).filterMap h.get) n.address
  walk : Walk h succ L [o.address] [] [] st st' (own.reverse.map (Place.mk o) ++ news)
  ready : Ready h L st'

def rootState (o : HeapObject) : VisitState :=
  ⟨{}, [{ pointer := o.address, refCount := o.refCounter.toNat, reachableRefCount := 1 }]⟩

theorem rootWalk (hw : h.WellFormed) (hR : Region h succ L) (ho : o ∈ h.objects)
    (hL : o.address ∈ L) (ptrTypeIndex : ℕ) :
    ∃ own news, RootWalk h succ L ptrTypeIndex o own (rootState o)
      (visitParts (visitPtr h (visitObject h h.objects.length) o.address) o.address
        (o.partsOf ptrTypeIndex) (rootState o)) news := by
  obtain ⟨hidden, hparts⟩ := o.exists_parts_eq ptrTypeIndex
  have hsub : (o.partsOf ptrTypeIndex).Sublist o.parts := hparts ▸ List.sublist_append_right _ _
  have hp : o.address ∈ (rootState o).objMap.pointers := List.mem_singleton_self _
  have hready : Ready h L (rootState o) := by
    refine ⟨fun _ _ _ _ _ _ hmem => absurd hmem List.not_mem_nil, fun _ c _ _ => ?_,
      List.nodup_singleton _, ?_⟩
    · exact ⟨c.parts, [], (List.append_nil _).symm, fun _ _ => List.not_mem_nil,
        fun _ hmem => absurd hmem List.not_mem_nil⟩
    · intro t ht
      obtain rfl := List.mem_singleton.1 ht
      simp [refCounter, hw.find_of_mem ho]
  have hfull : h.DistinctEntries L →
      entered o.address (o.partsOf ptrTypeIndex) {} = o.partsOf ptrTypeIndex := by
    intro hd
    have hn := (hd.nodup_parts ho hL).sublist (hsub.map _)
    have hall : entered o.address (o.partsOf ptrTypeIndex ++ []) {} = o.partsOf ptrTypeIndex :=
      entered_eq hn (fun _ _ => List.not_mem_nil) fun _ hmem => absurd hmem List.not_mem_nil
    rwa [List.append_nil] at hall
  have hstart := entered_isPrefix o.address (o.partsOf ptrTypeIndex) {}
  have hown : entered o.address (o.partsOf ptrTypeIndex) {} ⊆ o.parts :=
    (hstart.sublist.trans hsub).subset
  have hentered : Ready h L
      (enter o.address (entered o.address (o.partsOf ptrTypeIndex) {}) (rootState o)) := by
    refine ready_enter hready ho hL hown fun hd => ?_
    refine ⟨hidden, [], ?_, fun _ _ => List.not_mem_nil,
      fun _ hmem => absurd hmem List.not_mem_nil⟩
    rw [hfull hd, List.append_nil, hparts]
  obtain ⟨news, w, hr'⟩ := visitParts_spec hw hR (visitObject_spec hw hR h.objects.length) ho hL hp
    hsub rfl hready hentered (List.length_filter_le _ _)
  exact ⟨_, news, hstart.subset, hfull, w.reach, w.enter hw hR ho hL hp hown
    (fun _ => entered_fresh) (entered_nodup _ _ _), hr'⟩

theorem targets_shown (hown : own ⊆ o.partsOf ptrTypeIndex) {b : Address}
    (hb : b ∈ (own.reverse.flatMap ObjectPart.members).filterMap h.get) :
    b ∈ targets (o.shownTo ptrTypeIndex) := by
  obtain ⟨s, hs, hg⟩ := List.mem_filterMap.1 hb
  obtain ⟨part, hpart, hs⟩ := List.mem_flatMap.1 hs
  exact List.mem_filterMap.2 ⟨s,
    List.mem_flatMap.2 ⟨part, hown (List.mem_reverse.1 hpart), hs⟩, (get_eq_some.1 hg).1⟩

theorem RootWalk.entered (hw : h.WellFormed) (hR : Region h succ L) (hd : h.DistinctEntries L)
    (w : RootWalk h succ L ptrTypeIndex o own (rootState o) st' news)
    (hway : ReachIn succ L (targets (o.shownTo ptrTypeIndex)) o.address) {c : HeapObject}
    (hc : c ∈ h.objects) (hr : ReachIn succ L [o.address] c.address) (hcv : c.hasVisit = true)
    {part : ObjectPart} (hpart : part ∈ c.parts) :
    (⟨c, part⟩ : Place) ∈ own.reverse.map (Place.mk o) ++ news := by
  have hmarked : ∀ n ∈ h.places L, n.entry ∈ st'.cycleDetector.visitedObjects →
      n ∈ own.reverse.map (Place.mk o) ++ news := by
    intro n hn hmem
    rcases w.walk.bounded _ hmem with hmem | hmem | ⟨m, hm, hent⟩
    · cases hmem
    · cases hmem
    · obtain rfl := hd.inj hn (w.walk.fresh m hm).1 List.mem_cons_self hent
      exact hm
  have hplaces : ∀ d ∈ h.objects, d.address ∈ L → d.entry ∈ st'.cycleDetector.visitedObjects →
      ∀ q ∈ d.parts, (⟨d, q⟩ : Place) ∈ own.reverse.map (Place.mk o) ++ news :=
    fun d hdo hdL hent q hq => hmarked _ (mem_places.2 ⟨hdo, hdL, hq⟩)
      (w.ready.entered_all hd hdo hdL hent hq)
  -- what is behind an object that has been entered has been entered
  have hstep : ∀ a, (a ∈ L ∧ ∀ d, h.find a = some d → d.hasVisit = true →
      d.entry ∈ st'.cycleDetector.visitedObjects) → ∀ b ∈ succ a, b ∈ L → b ∈ L ∧ ∀ d,
      h.find b = some d → d.hasVisit = true → d.entry ∈ st'.cycleDetector.visitedObjects := by
    rintro a ⟨haL, hin⟩ b hb hbL
    refine ⟨hbL, fun d hf hdv => ?_⟩
    obtain ⟨e, hfe, hsucc⟩ := hR.objects a haL
    obtain ⟨heo, rfl⟩ := find_mem hfe
    have hev : e.hasVisit = true := by
      by_contra hev
      rw [hR.succ_eq_nil hw heo haL hev] at hb
      cases hb
    rw [← hsucc] at hb
    obtain ⟨s, hs, ht⟩ := List.mem_filterMap.1 hb
    obtain ⟨q, hq, hs⟩ := HeapObject.mem_members_iff.1 hs
    have hplace := hplaces e heo haL (hin e hfe hev) q hq
    refine w.walk.closed hd (e.address, b) (List.mem_append_right _ ?_) d hf hdv
    exact List.mem_flatMap.2 ⟨_, hplace, (mem_edges hw hR (w.walk.fresh _ hplace).1).2
      ⟨rfl, List.mem_filterMap.2 ⟨s, hs, ht⟩, hbL⟩⟩
  have hback := hway.of_closed (P := fun a => a ∈ L ∧ ∀ d, h.find a = some d →
    d.hasVisit = true → d.entry ∈ st'.cycleDetector.visitedObjects) ?_ hstep
  · have hall := hr.of_closed (P := fun a => a ∈ L ∧ ∀ d, h.find a = some d →
      d.hasVisit = true → d.entry ∈ st'.cycleDetector.visitedObjects)
      (fun s hs _ => List.mem_singleton.1 hs ▸ hback) hstep
    exact hplaces c hc hall.1 (hall.2 c (hw.find_of_mem hc) hcv) part hpart
  · intro a ha haL
    refine ⟨haL, fun d hf hdv => ?_⟩
    obtain ⟨s, hs, ht⟩ := List.mem_filterMap.1 ha
    obtain ⟨q, hq, hs⟩ := List.mem_flatMap.1 hs
    have hplace : (⟨o, q⟩ : Place) ∈ own.reverse.map (Place.mk o) ++ news := by
      rw [w.full hd]
      exact List.mem_append_left _ (List.mem_map_of_mem (List.mem_reverse.2 hq))
    refine w.walk.closed hd (o.address, a) (List.mem_append_right _ ?_) d hf hdv
    exact List.mem_flatMap.2 ⟨_, hplace, (mem_edges hw hR (w.walk.fresh _ hplace).1).2
      ⟨rfl, List.mem_filterMap.2 ⟨s, hs, ht⟩, haL⟩⟩

theorem RootWalk.records (hw : h.WellFormed) (hR : Region h succ L)
    (w : RootWalk h succ L ptrTypeIndex o own (rootState o) st' news) (ho : o ∈ h.objects) :
    Records h succ L ptrTypeIndex o.address
      ((own.reverse.map (Place.mk o) ++ news).flatMap h.edges) := by
  have hplaces := fun n hn => (w.walk.fresh n hn).1
  have hf := hw.find_of_mem ho
  refine ⟨fun a ha b => count_le_succ hw hR w.walk.nodup hplaces ha b, ?_, ?_, ?_⟩
  · intro a ha hnot
    rw [List.eq_nil_iff_forall_not_mem]
    intro b hb
    obtain ⟨n, hn, he⟩ := List.mem_flatMap.1 (mem_successors.1 hb)
    obtain ⟨rfl, -⟩ := (mem_edges hw hR (hplaces n hn)).1 he
    exact hnot (mem_sub.2 (w.walk.reach n hn))
  · rintro hd ⟨o', hf', hway⟩ a ha b hb
    obtain rfl := Option.some.inj (hf.symm.trans hf')
    obtain ⟨c, hfc, hsucc⟩ := hR.objects a (sub_subset ha)
    obtain ⟨hc, rfl⟩ := find_mem hfc
    by_cases hcv : c.hasVisit = true
    · exact count_eq_succ hw hR hd w.walk.nodup hplaces hc (sub_subset ha)
        (fun part hpart => w.entered hw hR hd hway hc (mem_sub.1 ha) hcv hpart) hb
    · have hle := count_le_succ hw hR w.walk.nodup hplaces (sub_subset ha) b
      rw [hR.succ_eq_nil hw hc (sub_subset ha) hcv, List.count_nil] at hle ⊢
      exact Nat.le_zero.1 hle
  · intro hnot x hmem
    refine hnot ⟨o, hf, ?_⟩
    have hstart : ∀ b ∈ (own.reverse.flatMap ObjectPart.members).filterMap h.get, b ∈ L →
        ReachIn succ L (targets (o.shownTo ptrTypeIndex)) b :=
      fun b hb hbL => .start (targets_shown w.shown hb) hbL
    obtain ⟨n, hn, he⟩ := List.mem_flatMap.1 hmem
    obtain ⟨rfl, hto, hyL⟩ := (mem_edges hw hR (hplaces n hn)).1 he
    obtain ⟨s, hs, ht⟩ := List.mem_filterMap.1 hto
    rcases List.mem_append.1 hn with hn | hn
    · obtain ⟨part, hpart, rfl⟩ := List.mem_map.1 hn
      exact hstart _ (List.mem_filterMap.2 ⟨s, List.mem_flatMap.2 ⟨part, hpart, hs⟩,
        get_eq_some.2 ⟨ht, hR.live _ hyL⟩⟩) hyL
    · obtain ⟨hno, hnL, hpart⟩ := mem_places.1 (w.walk.fresh n (List.mem_append_right _ hn)).1
      refine ((w.reach n hn).trans hstart).step ?_ hyL
      rw [Place.address, ← hR.succ_eq hw hno hnL]
      exact List.mem_filterMap.2 ⟨s, HeapObject.mem_members_iff.2 ⟨_, hpart, hs⟩, ht⟩

theorem countReferences_spec (hw : h.WellFormed) (hR : Region h succ L) (hf : h.find y = some o)
    (hy : y ∈ L) (ptrTypeIndex : ℕ) :
    ∃ edges, Counted h L y (h.countReferences ptrTypeIndex y o) edges ∧
      Records h succ L ptrTypeIndex y edges := by
  obtain ⟨ho, rfl⟩ := find_mem hf
  obtain ⟨own, news, w⟩ := rootWalk hw hR ho hy ptrTypeIndex
  have hplaces := fun n hn => (w.walk.fresh n hn).1
  refine ⟨_, ⟨w.ready.nodup, w.ready.refs, ?_, ?_, ?_, ?_⟩, w.records hw hR ho⟩
  · intro e he
    obtain ⟨n, hn, he⟩ := List.mem_flatMap.1 he
    obtain ⟨hx, -, hb⟩ := (mem_edges hw hR (hplaces n hn) (x := e.1) (b := e.2)).1 he
    rw [hx]
    exact ⟨(mem_places.1 (hplaces n hn)).2.1, hb, w.walk.listed n hn⟩
  · exact fun a => (w.walk.pointers a).trans (or_congr List.mem_singleton Iff.rfl)
  · intro a
    refine (w.walk.counts a).trans ?_
    rw [List.nil_append]
    congr 1
    by_cases he : a = o.address
    · simp [rootState, ObjMap.reached, ObjMap.lookup, he]
    · simp [rootState, ObjMap.reached, ObjMap.lookup, he, Ne.symm he]
  · intro x b
    refine (w.walk.children x b).trans (or_iff_right fun hold => ?_)
    by_cases he : o.address = x <;>
      simp [rootState, ObjMap.childrenOf, ObjMap.lookup, he] at hold

end Root

section Safe
variable {m : ObjMap} {edges : List (Address × Address)} {b z : Address}

theorem Counted.reachIn_iff (hm : Counted h L y m edges) :
    ReachIn m.childrenOf m.pointers.toFinset (m.childrenOf z) b ↔
      ReachIn (successors edges) L (successors edges z) b := by
  have hmem : ∀ {x b}, (x, b) ∈ edges → b ∈ L ∧ b ∈ m.pointers.toFinset := fun he =>
    ⟨(hm.inside _ he).2.1, List.mem_toFinset.2 ((hm.pointers _).2 (Or.inr ⟨_, he⟩))⟩
  constructor
  · intro hr
    induction hr with
    | start hc _ =>
      have he := (hm.children _ _).1 hc
      exact .start (mem_successors.2 he) (hmem he).1
    | step _ hd _ ih =>
      have he := (hm.children _ _).1 hd
      exact ih.step (mem_successors.2 he) (hmem he).1
  · intro hr
    induction hr with
    | start hc _ =>
      have he := mem_successors.1 hc
      exact .start ((hm.children _ _).2 he) (hmem he).2
    | step _ hd _ ih =>
      have he := mem_successors.1 hd
      exact ih.step ((hm.children _ _).2 he) (hmem he).2

/-- The comparison of `DecrementGraph` is the rule of trial deletion. -/
theorem Counted.safeToDelete_iff (hm : Counted h L y m edges) :
    safeToDelete m y = true ↔
      Collectable (successors edges) L (fun a => (h.refCounter a).toNat) y := by
  have hclosed : ∀ n ∈ m.pointers, ∀ c ∈ m.childrenOf n, c ∈ m.pointers :=
    fun n _ c hc => (hm.pointers c).2 (Or.inr ⟨n, (hm.children n c).1 hc⟩)
  have hy : y ∈ m.pointers := (hm.pointers y).2 (Or.inl rfl)
  -- the two counts of a node
  have hcount : ∀ t ∈ m, t.refCount = (h.refCounter t.pointer).toNat ∧ t.reachableRefCount =
      (if t.pointer = y then 1 else 0) + inDegree (successors edges) L t.pointer := by
    intro t ht
    refine ⟨hm.refs t ht, ?_⟩
    rw [inDegree_successors fun e he => (hm.inside e he).1, ← hm.reached, ObjMap.reached,
      ObjMap.lookup_of_mem hm.nodup ht]
    rfl
  unfold safeToDelete
  rw [List.all_eq_true]
  constructor
  · intro hall
    refine ⟨?_, ?_⟩
    · obtain ⟨t, ht, rfl⟩ := List.mem_map.1 hy
      have := hall t ht
      rw [if_pos rfl, decide_eq_true_eq, (hcount t ht).1, (hcount t ht).2, if_pos rfl] at this
      exact this
    · intro z hz hne hlt hback
      obtain ⟨c, hc, -⟩ := hback.exists_start
      obtain ⟨t, ht, rfl⟩ := List.mem_map.1 (hm.inside _ (mem_successors.1 hc)).2.2
      have := hall t ht
      rw [if_neg hne] at this
      have hreach := (ObjMap.isReachable_iff hclosed (List.mem_map_of_mem ht)).2
        (hm.reachIn_iff.2 hback)
      have hgt : t.refCount > t.reachableRefCount := by
        rw [(hcount t ht).1, (hcount t ht).2, if_neg hne]
        omega
      simp [hreach, hgt] at this
  · intro hc t ht
    obtain ⟨href, hreach⟩ := hcount t ht
    by_cases he : t.pointer = y
    · rw [if_pos he, decide_eq_true_eq, href, hreach, if_pos he, he]
      exact hc.alone
    · rw [if_neg he, Bool.not_eq_true', Bool.and_eq_false_iff]
      by_cases hgt : t.refCount > t.reachableRefCount
      · right
        rw [← Bool.not_eq_true, ObjMap.isReachable_iff hclosed (List.mem_map_of_mem ht),
          hm.reachIn_iff]
        intro hback
        obtain ⟨c, hc', -⟩ := hback.exists_start
        have hL : t.pointer ∈ L := (hm.inside _ (mem_successors.1 hc')).1
        refine hc.others _ hL he ?_ hback
        rw [href, hreach, if_neg he] at hgt
        omega
      · left
        simpa using hgt

end Safe
end Counted
end Heap
end AetherClient
