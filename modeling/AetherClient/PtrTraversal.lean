import AetherClient.PtrRefTree

set_option autoImplicit false

namespace AetherClient
open RefGraph

def PtrSlot.entry (s : PtrSlot) : ℕ := CycleDetector.entry s.typeIndex s.address

namespace ObjectPart

def entry (a : Address) (part : ObjectPart) : ℕ := CycleDetector.entry part.typeIndex a

def entries (a : Address) (part : ObjectPart) : List ℕ :=
  part.entry a :: part.members.map PtrSlot.entry

end ObjectPart

def targets (slots : List PtrSlot) : List Address := slots.filterMap PtrSlot.target

namespace HeapObject

def entry (o : HeapObject) : ℕ := CycleDetector.entry o.typeIndex o.address

def entries (o : HeapObject) : List ℕ := o.parts.flatMap (ObjectPart.entries o.address)

def shownTo (o : HeapObject) (ptrTypeIndex : ℕ) : List PtrSlot :=
  (o.partsOf ptrTypeIndex).flatMap ObjectPart.members

theorem splitMembers_members (typeIndex : ℕ) (bases : List BaseClass) (members : List PtrSlot) :
    (splitMembers typeIndex bases members).reverse.flatMap ObjectPart.members = members := by
  induction bases generalizing members with
  | nil => simp [splitMembers]
  | cons b rest ih => simp [splitMembers, ih]

theorem splitMembers_eq_cons (typeIndex : ℕ) (bases : List BaseClass) (members : List PtrSlot) :
    ∃ own rest, splitMembers typeIndex bases members = ⟨typeIndex, none, own⟩ :: rest := by
  induction bases generalizing members with
  | nil => exact ⟨members, [], rfl⟩
  | cons b rest ih =>
    obtain ⟨own, more, he⟩ := ih (members.drop b.memberCount)
    exact ⟨own, _, by rw [splitMembers, he, List.cons_append]⟩

variable {o : HeapObject} {s : PtrSlot}

theorem flatMap_parts_perm (o : HeapObject) :
    (o.parts.flatMap ObjectPart.members).Perm o.members := by
  conv_rhs => rw [← splitMembers_members o.typeIndex o.bases o.members]
  exact (List.reverse_perm _).symm.flatMap_right _

theorem mem_members_iff : s ∈ o.members ↔ ∃ part ∈ o.parts, s ∈ part.members := by
  rw [← o.flatMap_parts_perm.mem_iff, List.mem_flatMap]

theorem exists_parts_eq (o : HeapObject) (ptrTypeIndex : ℕ) :
    ∃ hidden, o.parts = hidden ++ o.partsOf ptrTypeIndex := by
  unfold partsOf
  split_ifs
  · exact ⟨_, List.takeWhile_append_dropWhile.symm⟩
  · exact ⟨[], rfl⟩

theorem mem_parts_of_partsOf {ptrTypeIndex : ℕ} {part : ObjectPart}
    (hp : part ∈ o.partsOf ptrTypeIndex) : part ∈ o.parts := by
  obtain ⟨hidden, he⟩ := o.exists_parts_eq ptrTypeIndex
  rw [he]
  exact List.mem_append_right _ hp

theorem mem_members_of_shownTo {ptrTypeIndex : ℕ} (hs : s ∈ o.shownTo ptrTypeIndex) :
    s ∈ o.members := by
  obtain ⟨part, hpart, hs⟩ := List.mem_flatMap.1 hs
  exact mem_members_iff.2 ⟨part, mem_parts_of_partsOf hpart, hs⟩

end HeapObject

structure Place where
  object : HeapObject
  part : ObjectPart

namespace Place

def address (n : Place) : Address := n.object.address

def entry (n : Place) : ℕ := n.part.entry n.address

def entries (n : Place) : List ℕ := n.part.entries n.address

theorem member_entry_mem {n : Place} {s : PtrSlot} (hs : s ∈ n.part.members) :
    s.entry ∈ n.entries :=
  List.mem_cons_of_mem _ (List.mem_map_of_mem hs)

end Place

namespace Heap

/-- Objects have different addresses, and all members are reported to the visitor. -/
structure WellFormed (h : Heap) : Prop where
  addresses : (h.objects.map HeapObject.address).Nodup
  reported : ∀ o ∈ h.objects, ∀ s ∈ o.members, s.reported = true ∧ o.hasVisit = true

/-- The entries of the cycle detector for the classes and members of these objects are
different. -/
def DistinctEntries (h : Heap) (L : Finset Address) : Prop :=
  ((h.objects.filter fun o => o.address ∈ L).flatMap HeapObject.entries).Nodup

instance (h : Heap) (L : Finset Address) : Decidable (h.DistinctEntries L) :=
  inferInstanceAs (Decidable (List.Nodup _))

def places (h : Heap) (L : Finset Address) : List Place :=
  (h.objects.filter fun o => o.address ∈ L).flatMap fun o => o.parts.map (Place.mk o)

section WellFormed
variable {h : Heap} {L M : Finset Address} {o : HeapObject} {n n' : Place} {s : PtrSlot}
  {a : Address} {k : ℕ}

theorem find_mem (hf : h.find a = some o) : o ∈ h.objects ∧ o.address = a :=
  ⟨List.mem_of_find?_eq_some hf, by simpa using List.find?_some hf⟩

theorem WellFormed.find_of_mem (hw : h.WellFormed) (ho : o ∈ h.objects) :
    h.find o.address = some o := Tables.find_of_key hw.addresses ho

theorem mem_places : n ∈ h.places L ↔
    n.object ∈ h.objects ∧ n.address ∈ L ∧ n.part ∈ n.object.parts := by
  simp only [places, List.mem_flatMap, List.mem_filter, List.mem_map, decide_eq_true_eq]
  constructor
  · rintro ⟨o, ⟨ho, hL⟩, part, hpart, rfl⟩
    exact ⟨ho, hL, hpart⟩
  · exact fun ⟨ho, hL, hpart⟩ => ⟨n.object, ⟨ho, hL⟩, n.part, hpart, rfl⟩

theorem flatMap_places : (h.places L).flatMap Place.entries =
    (h.objects.filter fun o => o.address ∈ L).flatMap HeapObject.entries := by
  unfold places HeapObject.entries
  rw [List.flatMap_assoc]
  refine List.flatMap_congr fun o _ => ?_
  rw [List.flatMap_map]
  rfl

theorem DistinctEntries.inj (hd : h.DistinctEntries L) (hn : n ∈ h.places L)
    (hn' : n' ∈ h.places L) (hk : k ∈ n.entries) (hk' : k ∈ n'.entries) : n = n' := by
  by_contra hne
  rw [DistinctEntries, ← flatMap_places] at hd
  have hsymm : Std.Symm (Function.onFun List.Disjoint Place.entries) := ⟨fun _ _ hd => hd.symm⟩
  have hdis : List.Disjoint n.entries n'.entries :=
    (List.nodup_flatMap.1 hd).2.forall hn hn' hne
  exact hdis hk hk'

theorem DistinctEntries.nodup (hd : h.DistinctEntries L) (ho : o ∈ h.objects)
    (hL : o.address ∈ L) : o.entries.Nodup :=
  (List.nodup_flatMap.1 hd).1 o (List.mem_filter.2 ⟨ho, by simpa using hL⟩)

theorem DistinctEntries.member_ne (hd : h.DistinctEntries L) (hn : n ∈ h.places L)
    (hs : s ∈ n.part.members) (hn' : n' ∈ h.places L) : s.entry ≠ n'.entry := by
  intro he
  have hk : n'.entry ∈ n.entries := he ▸ Place.member_entry_mem hs
  obtain rfl := hd.inj hn hn' hk List.mem_cons_self
  obtain ⟨ho, hL, hpart⟩ := mem_places.1 hn
  have hnodup := (List.nodup_flatMap.1 (hd.nodup ho hL)).1 n.part hpart
  exact (List.nodup_cons.1 hnodup).1 (List.mem_map.2 ⟨s, hs, he⟩)

theorem DistinctEntries.nodup_parts (hd : h.DistinctEntries L) (ho : o ∈ h.objects)
    (hL : o.address ∈ L) : (o.parts.map (ObjectPart.entry o.address)).Nodup := by
  refine (hd.nodup ho hL).sublist ?_
  unfold HeapObject.entries
  induction o.parts with
  | nil => exact List.Sublist.refl _
  | cons part rest ih =>
    rw [List.map_cons, List.flatMap_cons, ObjectPart.entries, List.cons_append]
    exact (ih.trans (List.sublist_append_right _ _)).cons_cons _

theorem DistinctEntries.nodup_members (hd : h.DistinctEntries L) (ho : o ∈ h.objects)
    (hL : o.address ∈ L) : (o.members.map PtrSlot.entry).Nodup := by
  rw [← (o.flatMap_parts_perm.map PtrSlot.entry).nodup_iff]
  refine (hd.nodup ho hL).sublist ?_
  unfold HeapObject.entries
  induction o.parts with
  | nil => exact List.Sublist.refl _
  | cons part rest ih =>
    rw [List.flatMap_cons, List.map_append, List.flatMap_cons]
    exact (List.sublist_cons_self _ _).append ih

theorem DistinctEntries.mono (hd : h.DistinctEntries M) (hL : L ⊆ M) : h.DistinctEntries L := by
  refine List.Nodup.sublist ?_ hd
  have hsub : (h.objects.filter fun o => o.address ∈ L).Sublist
      (h.objects.filter fun o => o.address ∈ M) := by
    refine List.monotone_filter_right _ fun o ho => ?_
    simp only [decide_eq_true_eq] at ho ⊢
    exact hL ho
  exact hsub.flatMap _

theorem WellFormed.visited_eq {part : ObjectPart} (hw : h.WellFormed) (ho : o ∈ h.objects)
    (hpart : part ∈ o.parts) : part.visited = part.members :=
  List.filter_eq_self.2 fun s hs =>
    (hw.reported o ho s (HeapObject.mem_members_iff.2 ⟨part, hpart, hs⟩)).1

theorem filterMap_get (h : Heap) (slots : List PtrSlot) :
    slots.filterMap h.get = (targets slots).filter fun a => h.refCounter a ≠ 0 := by
  unfold targets
  rw [List.filter_filterMap]
  rfl

end WellFormed

/-- `L` is a set of live objects with successors `succ` that the live references out of it
do not leave. -/
structure Region (h : Heap) (succ : Address → List Address) (L : Finset Address) : Prop where
  objects : ∀ a ∈ L, ∃ o, h.find a = some o ∧ targets o.members = succ a
  live : ∀ a ∈ L, h.refCounter a ≠ 0
  closed : ∀ a ∈ L, ∀ b ∈ succ a, h.refCounter b ≠ 0 → b ∈ L

def slotEdges (h : Heap) (a : Address) (slots : List PtrSlot) : List (Address × Address) :=
  (slots.filterMap h.get).map fun b => (a, b)

def edges (h : Heap) (n : Place) : List (Address × Address) :=
  h.slotEdges n.address n.part.members

/-- What a walk from `st` to `st'` has done: it entered the classes `news` and recorded
their references and those of `held`. Whether it has passed over an object is known only if
the entries are distinct. -/
structure Walk (h : Heap) (succ : Address → List Address) (L : Finset Address)
    (starts : List Address) (held : List (Address × Address)) (slots : List ℕ)
    (st st' : VisitState) (news : List Place) : Prop where
  counts : ∀ a, st'.objMap.reached a = st.objMap.reached a +
    ((held ++ news.flatMap h.edges).map Prod.snd).count a
  pointers : ∀ a, a ∈ st'.objMap.pointers ↔ a ∈ st.objMap.pointers ∨
    ∃ x, (x, a) ∈ held ++ news.flatMap h.edges
  children : ∀ x b, b ∈ st'.objMap.childrenOf x ↔ b ∈ st.objMap.childrenOf x ∨
    (x, b) ∈ held ++ news.flatMap h.edges
  fresh : ∀ n ∈ news, n ∈ h.places L ∧ n.entry ∉ st.cycleDetector.visitedObjects
  nodup : news.Nodup
  grows : st.cycleDetector.visitedObjects ⊆ st'.cycleDetector.visitedObjects
  marks : ∀ n ∈ news, n.entry ∈ st'.cycleDetector.visitedObjects
  bounded : ∀ k ∈ st'.cycleDetector.visitedObjects, k ∈ st.cycleDetector.visitedObjects ∨
    k ∈ slots ∨ ∃ n ∈ news, k ∈ n.entries
  closed : h.DistinctEntries L → ∀ e ∈ held ++ news.flatMap h.edges, ∀ o,
    h.find e.2 = some o → o.hasVisit = true → o.entry ∈ st'.cycleDetector.visitedObjects
  reach : ∀ n ∈ news, ReachIn succ L starts n.address
  listed : ∀ n ∈ news, n.address ∈ st'.objMap.pointers

/-- The state a walk can go on from: with distinct entries, a class that has not been entered has
no visited members, and the classes of an object that have been entered are the last ones. -/
structure Ready (h : Heap) (L : Finset Address) (st : VisitState) : Prop where
  free : h.DistinctEntries L → ∀ n ∈ h.places L, n.entry ∉ st.cycleDetector.visitedObjects →
    ∀ s ∈ n.part.members, s.entry ∉ st.cycleDetector.visitedObjects
  split : h.DistinctEntries L → ∀ o ∈ h.objects, o.address ∈ L → ∃ todo done,
    o.parts = todo ++ done ∧
    (∀ part ∈ todo, part.entry o.address ∉ st.cycleDetector.visitedObjects) ∧
    ∀ part ∈ done, part.entry o.address ∈ st.cycleDetector.visitedObjects
  nodup : st.objMap.pointers.Nodup
  refs : ∀ t ∈ st.objMap, t.refCount = (h.refCounter t.pointer).toNat

def unvisited (h : Heap) (st : VisitState) : ℕ :=
  (h.objects.filter fun o => o.entry ∉ st.cycleDetector.visitedObjects).length

section Walk
variable {h : Heap} {succ : Address → List Address} {L : Finset Address}

theorem Walk.refl (st : VisitState) : Walk h succ L [] [] [] st st [] where
  counts := by simp
  pointers := by simp
  children := by simp
  fresh := by simp
  nodup := List.nodup_nil
  grows := fun _ hk => hk
  marks := by simp
  bounded := fun _ hk => Or.inl hk
  closed := by simp
  reach := by simp
  listed := by simp

theorem Walk.append {s₁ s₂ : List Address} {e₁ e₂ : List (Address × Address)} {k₁ k₂ : List ℕ}
    {st st₁ st₂ : VisitState} {n₁ n₂ : List Place}
    (w₁ : Walk h succ L s₁ e₁ k₁ st st₁ n₁) (w₂ : Walk h succ L s₂ e₂ k₂ st₁ st₂ n₂) :
    Walk h succ L (s₁ ++ s₂) (e₁ ++ e₂) (k₁ ++ k₂) st st₂ (n₁ ++ n₂) := by
  have hmem : ∀ e, e ∈ (e₁ ++ e₂) ++ (n₁ ++ n₂).flatMap h.edges ↔
      e ∈ e₁ ++ n₁.flatMap h.edges ∨ e ∈ e₂ ++ n₂.flatMap h.edges := by
    intro e
    simp only [List.flatMap_append, List.mem_append]
    tauto
  refine ⟨?_, ?_, ?_, ?_, ?_, fun _ hk => w₂.grows (w₁.grows hk), ?_, ?_, ?_, ?_, ?_⟩
  · intro a
    rw [w₂.counts, w₁.counts]
    simp only [List.map_append, List.flatMap_append, List.count_append]
    omega
  · intro a
    simp only [w₂.pointers, w₁.pointers, hmem, exists_or, or_assoc]
  · intro x b
    rw [w₂.children, w₁.children, hmem, or_assoc]
  · intro n hn
    rcases List.mem_append.1 hn with hn | hn
    · exact w₁.fresh n hn
    · obtain ⟨hplace, hnew⟩ := w₂.fresh n hn
      exact ⟨hplace, fun hk => hnew (w₁.grows hk)⟩
  · refine w₁.nodup.append w₂.nodup ?_
    intro n h₁ h₂
    exact (w₂.fresh n h₂).2 (w₁.marks n h₁)
  · intro n hn
    rcases List.mem_append.1 hn with hn | hn
    · exact w₂.grows (w₁.marks n hn)
    · exact w₂.marks n hn
  · intro k hk
    rcases w₂.bounded k hk with hk | hk | ⟨n, hn, hk⟩
    · rcases w₁.bounded k hk with hk | hk | ⟨n, hn, hk⟩
      · exact Or.inl hk
      · exact Or.inr (Or.inl (List.mem_append_left _ hk))
      · exact Or.inr (Or.inr ⟨n, List.mem_append_left _ hn, hk⟩)
    · exact Or.inr (Or.inl (List.mem_append_right _ hk))
    · exact Or.inr (Or.inr ⟨n, List.mem_append_right _ hn, hk⟩)
  · intro hd e he o hf hv
    rcases (hmem e).1 he with he | he
    · exact w₂.grows (w₁.closed hd e he o hf hv)
    · exact w₂.closed hd e he o hf hv
  · intro n hn
    rcases List.mem_append.1 hn with hn | hn
    · exact (w₁.reach n hn).trans fun s hs hL => .start (List.mem_append_left _ hs) hL
    · exact (w₂.reach n hn).trans fun s hs hL => .start (List.mem_append_right _ hs) hL
  · intro n hn
    rcases List.mem_append.1 hn with hn | hn
    · exact (w₂.pointers _).2 (Or.inl (w₁.listed n hn))
    · exact w₂.listed n hn

theorem Walk.mono {s s' : List Address} {e : List (Address × Address)} {k k' : List ℕ}
    {st st' : VisitState} {news : List Place} (w : Walk h succ L s e k st st' news)
    (hs : s ⊆ s') (hk : k ⊆ k') : Walk h succ L s' e k' st st' news :=
  { w with
    bounded := fun j hj => (w.bounded j hj).imp_right fun hj => hj.imp_left fun hj => hk hj
    reach := fun n hn => (w.reach n hn).trans fun _ hb hL => .start (hs hb) hL }

theorem unvisited_sublist {st st' : VisitState}
    (hs : st.cycleDetector.visitedObjects ⊆ st'.cycleDetector.visitedObjects) :
    (h.objects.filter fun o => o.entry ∉ st'.cycleDetector.visitedObjects).Sublist
      (h.objects.filter fun o => o.entry ∉ st.cycleDetector.visitedObjects) := by
  refine List.monotone_filter_right _ ?_
  intro o ho
  simp only [decide_eq_true_eq] at ho ⊢
  exact fun hv => ho (hs hv)

theorem unvisited_le {st st' : VisitState}
    (hs : st.cycleDetector.visitedObjects ⊆ st'.cycleDetector.visitedObjects) :
    h.unvisited st' ≤ h.unvisited st :=
  (unvisited_sublist hs).length_le

theorem unvisited_lt {st st' : VisitState} {o : HeapObject} (ho : o ∈ h.objects)
    (hs : st.cycleDetector.visitedObjects ⊆ st'.cycleDetector.visitedObjects)
    (hnew : o.entry ∉ st.cycleDetector.visitedObjects)
    (hnow : o.entry ∈ st'.cycleDetector.visitedObjects) : h.unvisited st' < h.unvisited st := by
  refine lt_of_le_of_ne (unvisited_le hs) ?_
  intro he
  have hmem : o ∈ h.objects.filter fun o => o.entry ∉ st.cycleDetector.visitedObjects :=
    List.mem_filter.2 ⟨ho, by simpa using hnew⟩
  rw [← (unvisited_sublist hs).eq_of_length he] at hmem
  simp only [List.mem_filter, decide_eq_true_eq] at hmem
  exact hmem.2 hnow

theorem get_eq_some {s : PtrSlot} {a : Address} :
    h.get s = some a ↔ s.target = some a ∧ h.refCounter a ≠ 0 := by
  unfold get
  rw [Option.filter_eq_some_iff]
  simp

theorem Region.get_mem {s : PtrSlot} {a : Address} {c : HeapObject} (hw : h.WellFormed)
    (hR : Region h succ L) (hc : c ∈ h.objects) (hcL : c.address ∈ L) (hs : s ∈ c.members)
    (hg : h.get s = some a) : a ∈ succ c.address ∧ a ∈ L := by
  obtain ⟨ht, hlive⟩ := get_eq_some.1 hg
  obtain ⟨o, hf, hsucc⟩ := hR.objects _ hcL
  obtain rfl := Option.some.inj ((hw.find_of_mem hc).symm.trans hf)
  have hmem : a ∈ succ c.address := by
    rw [← hsucc]
    exact List.mem_filterMap.2 ⟨s, hs, ht⟩
  exact ⟨hmem, hR.closed _ hcL a hmem hlive⟩

def VisitsObject (h : Heap) (succ : Address → List Address) (L : Finset Address) (bound : ℕ)
    (visit : VisitState → HeapObject → VisitState) : Prop :=
  ∀ st o, Ready h L st → o ∈ h.objects → o.address ∈ L → o.address ∈ st.objMap.pointers →
    h.unvisited st ≤ bound → ∃ news, Walk h succ L [o.address] [] [] st (visit st o) news ∧
      Ready h L (visit st o) ∧
      (o.hasVisit = true → o.entry ∈ (visit st o).cycleDetector.visitedObjects)

def recorded (h : Heap) (holder a : Address) (st : VisitState) : VisitState :=
  { st with objMap := st.objMap.reference holder a (h.refCounter a).toNat }

def marked (st : VisitState) (s : PtrSlot) : VisitState :=
  { st with cycleDetector := st.cycleDetector.add s.typeIndex s.address }

section Visit
variable {bound : ℕ} {visit : VisitState → HeapObject → VisitState} {c : HeapObject}

theorem visitPtr_of_get {s : PtrSlot} {a : Address} {o : HeapObject} {st : VisitState}
    (hg : h.get s = some a) (hf : h.find a = some o) (holder : Address) :
    visitPtr h visit holder st s = if s.entry ∈ st.cycleDetector.visitedObjects
      then h.recorded holder a st else visit (marked (h.recorded holder a st) s) o := by
  have hvisited : st.cycleDetector.isVisited s.typeIndex s.address =
      decide (s.entry ∈ st.cycleDetector.visitedObjects) := by
    rw [Bool.eq_iff_iff, decide_eq_true_eq, CycleDetector.isVisited, List.contains_iff_mem]
    rfl
  simp only [visitPtr, hg, hvisited, decide_eq_true_eq, hf]
  rfl

theorem ready_recorded {st : VisitState} (hr : Ready h L st) (x a : Address) :
    Ready h L (h.recorded x a st) :=
  ⟨hr.free, hr.split, ObjMap.pointers_reference_nodup hr.nodup,
    ObjMap.refCount_reference (fun b => (h.refCounter b).toNat) hr.nodup hr.refs⟩

theorem ready_marked {s : PtrSlot} {st : VisitState} {n : Place} (hr : Ready h L st)
    (hn : n ∈ h.places L) (hnv : n.entry ∈ st.cycleDetector.visitedObjects)
    (hs : s ∈ n.part.members) : Ready h L (marked st s) := by
  refine ⟨?_, ?_, hr.nodup, hr.refs⟩
  · intro hd m hm hnot t ht hmem
    have hold : m.entry ∉ st.cycleDetector.visitedObjects :=
      fun hv => hnot (List.mem_cons_of_mem _ hv)
    rcases List.mem_cons.1 hmem with he | hmem
    · have he : t.entry = s.entry := he
      obtain rfl := hd.inj hm hn (he ▸ Place.member_entry_mem ht) (Place.member_entry_mem hs)
      exact hold hnv
    · exact hr.free hd m hm hold t ht hmem
  · intro hd o ho hL
    obtain ⟨todo, done, hparts, htodo, hdone⟩ := hr.split hd o ho hL
    refine ⟨todo, done, hparts, fun part hpart hmem => ?_,
      fun part hpart => List.mem_cons_of_mem _ (hdone part hpart)⟩
    rcases List.mem_cons.1 hmem with he | hmem
    · have hplace : (⟨o, part⟩ : Place) ∈ h.places L :=
        mem_places.2 ⟨ho, hL, hparts ▸ List.mem_append_left _ hpart⟩
      exact hd.member_ne hn hs hplace he.symm
    · exact htodo part hpart hmem

theorem visited_subset_marked (st : VisitState) (s : PtrSlot) :
    st.cycleDetector.visitedObjects ⊆ (marked st s).cycleDetector.visitedObjects :=
  fun _ hk => List.mem_cons_of_mem _ hk

theorem Walk.marked {starts : List Address} {held : List (Address × Address)} {s : PtrSlot}
    {st st' : VisitState} {news : List Place}
    (w : Walk h succ L starts held [] (marked st s) st' news) :
    Walk h succ L starts held [s.entry] st st' news := by
  have hgrows := visited_subset_marked st s
  refine ⟨w.counts, w.pointers, w.children, ?_, w.nodup, fun _ hk => w.grows (hgrows hk),
    w.marks, ?_, w.closed, w.reach, w.listed⟩
  · intro n hn
    obtain ⟨hplace, hfresh⟩ := w.fresh n hn
    exact ⟨hplace, fun hk => hfresh (hgrows hk)⟩
  · intro k hk
    rcases w.bounded k hk with hk | hk | hk
    · rcases List.mem_cons.1 hk with rfl | hk
      · exact Or.inr (Or.inl (List.mem_singleton_self _))
      · exact Or.inl hk
    · cases hk
    · exact Or.inr (Or.inr hk)

theorem Walk.recorded {st st' : VisitState} {o : HeapObject} {x : Address} {slots : List ℕ}
    {news : List Place} (hx : x ∈ st.objMap.pointers) (hf : h.find o.address = some o)
    (hmark : h.DistinctEntries L → o.hasVisit = true →
      o.entry ∈ st'.cycleDetector.visitedObjects)
    (w : Walk h succ L [o.address] [] slots (h.recorded x o.address st) st' news) :
    Walk h succ L [o.address] [(x, o.address)] slots st st' news := by
  refine ⟨?_, ?_, ?_, w.fresh, w.nodup, w.grows, w.marks, w.bounded, ?_, w.reach,
    w.listed⟩
  · intro b
    rw [w.counts]
    simp only [Heap.recorded, ObjMap.reached_reference, List.nil_append, List.cons_append,
      List.map_cons, List.count_cons, beq_iff_eq]
    split_ifs with h₁ h₂ h₂
    · omega
    · exact absurd h₁.symm h₂
    · exact absurd h₂.symm h₁
    · omega
  · intro b
    rw [w.pointers]
    simp only [Heap.recorded, ObjMap.mem_pointers_reference, List.nil_append, List.cons_append,
      List.mem_cons, Prod.mk.injEq, exists_or, or_assoc]
    simp
  · intro y b
    rw [w.children]
    simp only [Heap.recorded, ObjMap.mem_childrenOf_reference hx, List.nil_append,
      List.cons_append, List.mem_cons, Prod.mk.injEq, or_assoc]
  · intro hd e he d hfd hv
    rcases List.mem_cons.1 he with rfl | he
    · obtain rfl := Option.some.inj (hf.symm.trans hfd)
      exact hmark hd hv
    · exact w.closed hd e he d hfd hv

theorem visitPtr_spec {s : PtrSlot} {st : VisitState} {n : Place} (hw : h.WellFormed)
    (hR : Region h succ L) (hvisit : VisitsObject h succ L bound visit) (hn : n ∈ h.places L)
    (hs : s ∈ n.part.members) (hr : Ready h L st)
    (hnv : n.entry ∈ st.cycleDetector.visitedObjects) (hnp : n.address ∈ st.objMap.pointers)
    (hnew : h.DistinctEntries L → s.entry ∉ st.cycleDetector.visitedObjects)
    (hb : h.unvisited st ≤ bound) :
    ∃ news, Walk h succ L ([s].filterMap h.get) (h.slotEdges n.address [s]) [s.entry] st
        (visitPtr h visit n.address st s) news ∧
      Ready h L (visitPtr h visit n.address st s) := by
  unfold slotEdges
  cases hg : h.get s with
  | none =>
    have hst : visitPtr h visit n.address st s = st := by simp only [visitPtr, hg]
    rw [hst]
    simp only [List.filterMap_cons, hg, List.filterMap_nil, List.map_nil]
    exact ⟨[], (Walk.refl st).mono (fun _ hb => hb) (List.nil_subset _), hr⟩
  | some a =>
    obtain ⟨hobj, hL, hpart⟩ := mem_places.1 hn
    obtain ⟨-, haL⟩ := hR.get_mem hw hobj hL (HeapObject.mem_members_iff.2 ⟨_, hpart, hs⟩) hg
    obtain ⟨o, hf, -⟩ := hR.objects a haL
    obtain ⟨ho, rfl⟩ := find_mem hf
    have hrec := ready_recorded hr n.address o.address
    rw [visitPtr_of_get hg hf]
    simp only [List.filterMap_cons, hg, List.filterMap_nil, List.map_cons, List.map_nil]
    by_cases hold : s.entry ∈ st.cycleDetector.visitedObjects
    · -- the entry is there already: the target is recorded but not visited
      rw [if_pos hold]
      refine ⟨[], Walk.recorded hnp hf (fun hd => absurd hold (hnew hd)) ?_, hrec⟩
      exact (Walk.refl _).mono (List.nil_subset _) (List.nil_subset _)
    · rw [if_neg hold]
      obtain ⟨news, w, hr', hmark⟩ := hvisit _ o (ready_marked hrec hn hnv hs) ho haL
        (ObjMap.mem_pointers_reference.2 (Or.inr rfl))
        ((unvisited_le (visited_subset_marked (h.recorded n.address o.address st) s)).trans hb)
      exact ⟨news, Walk.recorded hnp hf (fun _ => hmark) w.marked, hr'⟩

/-- The loop over members of classes of one object that have been entered. With distinct entries
the members still to come have not been visited: a nested visit only adds entries of other
classes. -/
theorem visitMembers_spec (hw : h.WellFormed) (hR : Region h succ L)
    (hvisit : VisitsObject h succ L bound visit) (slots : List PtrSlot) (st : VisitState)
    (hs : ∀ s ∈ slots, ∃ part, ⟨c, part⟩ ∈ h.places L ∧ s ∈ part.members ∧
      part.entry c.address ∈ st.cycleDetector.visitedObjects)
    (hn : h.DistinctEntries L → (slots.map PtrSlot.entry).Nodup) (hr : Ready h L st)
    (hcp : c.address ∈ st.objMap.pointers)
    (hnew : h.DistinctEntries L → ∀ s ∈ slots, s.entry ∉ st.cycleDetector.visitedObjects)
    (hb : h.unvisited st ≤ bound) :
    ∃ news, Walk h succ L (slots.filterMap h.get) (h.slotEdges c.address slots)
        (slots.map PtrSlot.entry) st (slots.foldl (visitPtr h visit c.address) st) news ∧
      Ready h L (slots.foldl (visitPtr h visit c.address) st) := by
  induction slots generalizing st with
  | nil => exact ⟨[], Walk.refl st, hr⟩
  | cons s rest ih =>
    obtain ⟨part, hplace, hsp, hpv⟩ := hs s List.mem_cons_self
    obtain ⟨n₁, w₁, hr₁⟩ := visitPtr_spec hw hR hvisit hplace hsp hr hpv hcp
      (fun hd => hnew hd s List.mem_cons_self) hb
    have hrest : h.DistinctEntries L → ∀ t ∈ rest, t.entry ∉
        (visitPtr h visit c.address st s).cycleDetector.visitedObjects := by
      intro hd t ht hmem
      obtain ⟨q, hq, htq, hqv⟩ := hs t (List.mem_cons_of_mem _ ht)
      rcases w₁.bounded _ hmem with hold | hslot | ⟨n, hnn, hent⟩
      · exact hnew hd t (List.mem_cons_of_mem _ ht) hold
      · exact (List.nodup_cons.1 (hn hd)).1 (List.mem_singleton.1 hslot ▸ List.mem_map_of_mem ht)
      · obtain ⟨hnplace, hfresh⟩ := w₁.fresh n hnn
        obtain rfl := hd.inj hq hnplace (Place.member_entry_mem htq) hent
        exact hfresh hqv
    obtain ⟨n₂, w₂, hr₂⟩ := ih (visitPtr h visit c.address st s)
      (fun t ht => (hs t (List.mem_cons_of_mem _ ht)).imp fun q hq =>
        ⟨hq.1, hq.2.1, w₁.grows hq.2.2⟩) (fun hd => (List.nodup_cons.1 (hn hd)).2) hr₁
      ((w₁.pointers _).2 (Or.inl hcp)) hrest ((unvisited_le w₁.grows).trans hb)
    refine ⟨n₁ ++ n₂, ?_, hr₂⟩
    have hstarts : (s :: rest).filterMap h.get = [s].filterMap h.get ++ rest.filterMap h.get := by
      rw [← List.filterMap_append]
      rfl
    rw [slotEdges, hstarts, List.map_append, List.map_cons, List.foldl_cons]
    exact w₁.append w₂

/-- The classes that a visit enters, before it comes to one that has been entered. -/
def entered (a : Address) : List ObjectPart → CycleDetector → List ObjectPart
  | [], _ => []
  | part :: bases, cd =>
    if part.entry a ∈ cd.visitedObjects then []
    else part :: entered a bases (cd.add part.typeIndex a)

def enter (a : Address) (own : List ObjectPart) (st : VisitState) : VisitState :=
  { st with cycleDetector :=
    ⟨(own.map (ObjectPart.entry a)).reverse ++ st.cycleDetector.visitedObjects⟩ }

theorem mem_enter {a : Address} {own : List ObjectPart} {st : VisitState} {k : ℕ} :
    k ∈ (enter a own st).cycleDetector.visitedObjects ↔
      (∃ part ∈ own, part.entry a = k) ∨ k ∈ st.cycleDetector.visitedObjects := by
  simp [enter]

theorem visitParts_eq (visitPtr : VisitState → PtrSlot → VisitState) (a : Address)
    (parts : List ObjectPart) (st : VisitState) : visitParts visitPtr a parts st =
      ((entered a parts st.cycleDetector).reverse.flatMap ObjectPart.visited).foldl visitPtr
        (enter a (entered a parts st.cycleDetector) st) := by
  induction parts generalizing st with
  | nil => rfl
  | cons part bases ih =>
    have hvisited : st.cycleDetector.isVisited part.typeIndex a =
        decide (part.entry a ∈ st.cycleDetector.visitedObjects) := by
      rw [Bool.eq_iff_iff, decide_eq_true_eq, CycleDetector.isVisited, List.contains_iff_mem]
      rfl
    unfold visitParts entered
    by_cases hold : part.entry a ∈ st.cycleDetector.visitedObjects
    · simp [hvisited, hold, enter]
    · simp only [hvisited, hold, decide_false, Bool.false_eq_true, if_false, ih,
        List.reverse_cons, List.flatMap_append, List.foldl_append, List.flatMap_singleton]
      congr 2
      simp [enter, CycleDetector.add, ObjectPart.entry]

theorem entered_isPrefix (a : Address) (parts : List ObjectPart) (cd : CycleDetector) :
    entered a parts cd <+: parts := by
  induction parts generalizing cd with
  | nil => exact List.prefix_refl _
  | cons part bases ih =>
    unfold entered
    split_ifs
    · exact List.nil_prefix
    · exact List.cons_prefix_cons.2 ⟨rfl, ih _⟩

theorem entered_fresh {a : Address} {parts : List ObjectPart} {cd : CycleDetector}
    {part : ObjectPart} (hp : part ∈ entered a parts cd) : part.entry a ∉ cd.visitedObjects := by
  induction parts generalizing cd with
  | nil => cases hp
  | cons q bases ih =>
    unfold entered at hp
    split_ifs at hp with hold
    · cases hp
    · rcases List.mem_cons.1 hp with rfl | hp
      · exact hold
      · exact fun hm => ih hp (List.mem_cons_of_mem _ hm)

theorem entered_nodup (a : Address) (parts : List ObjectPart) (cd : CycleDetector) :
    ((entered a parts cd).map (ObjectPart.entry a)).Nodup := by
  induction parts generalizing cd with
  | nil => exact List.nodup_nil
  | cons part bases ih =>
    unfold entered
    split_ifs
    · exact List.nodup_nil
    · refine List.nodup_cons.2 ⟨fun hm => ?_, ih _⟩
      obtain ⟨q, hq, he⟩ := List.mem_map.1 hm
      exact entered_fresh hq (he ▸ List.mem_cons_self)

theorem entered_eq {a : Address} {todo done : List ObjectPart} {cd : CycleDetector}
    (hn : (todo.map (ObjectPart.entry a)).Nodup)
    (htodo : ∀ part ∈ todo, part.entry a ∉ cd.visitedObjects)
    (hdone : ∀ part ∈ done, part.entry a ∈ cd.visitedObjects) :
    entered a (todo ++ done) cd = todo := by
  induction todo generalizing cd with
  | nil =>
    cases done with
    | nil => rfl
    | cons part rest => exact if_pos (hdone part List.mem_cons_self)
  | cons part rest ih =>
    rw [List.cons_append, entered, if_neg (htodo part List.mem_cons_self)]
    rw [List.map_cons, List.nodup_cons] at hn
    refine congrArg _ (ih hn.2 ?_ fun q hq => List.mem_cons_of_mem _ (hdone q hq))
    intro q hq hm
    rcases List.mem_cons.1 hm with he | hm
    · exact hn.1 (List.mem_map.2 ⟨q, hq, he⟩)
    · exact htodo q (List.mem_cons_of_mem _ hq) hm

section Enter
variable {own parts : List ObjectPart} {st : VisitState}

theorem ready_enter (hr : Ready h L st) (hc : c ∈ h.objects) (hcL : c.address ∈ L)
    (hown : own ⊆ c.parts)
    (hsplit : h.DistinctEntries L → ∃ before done, c.parts = before ++ (own ++ done) ∧
      (∀ part ∈ before, part.entry c.address ∉ st.cycleDetector.visitedObjects) ∧
      ∀ part ∈ done, part.entry c.address ∈ st.cycleDetector.visitedObjects) :
    Ready h L (enter c.address own st) := by
  have hplace : ∀ part ∈ own, (⟨c, part⟩ : Place) ∈ h.places L :=
    fun part hpart => mem_places.2 ⟨hc, hcL, hown hpart⟩
  refine ⟨?_, ?_, hr.nodup, hr.refs⟩
  · intro hd n hn hnot s hs hmem
    rw [mem_enter] at hmem hnot
    rcases hmem with ⟨part, hpart, he⟩ | hmem
    · exact hd.member_ne hn hs (hplace part hpart) he.symm
    · exact hr.free hd n hn (fun hv => hnot (Or.inr hv)) s hs hmem
  · intro hd o ho hL
    by_cases he : o = c
    · subst he
      obtain ⟨before, done, hparts, hbefore, hdone⟩ := hsplit hd
      have hn := hd.nodup_parts ho hL
      rw [hparts, List.map_append] at hn
      refine ⟨before, own ++ done, hparts, fun part hpart hmem => ?_, fun part hpart => ?_⟩
      · rcases mem_enter.1 hmem with ⟨q, hq, he⟩ | hmem
        · refine (List.nodup_append.1 hn).2.2 _ (List.mem_map_of_mem hpart) _
            (List.mem_map_of_mem (List.mem_append_left _ hq)) he.symm
        · exact hbefore part hpart hmem
      · rw [mem_enter]
        rcases List.mem_append.1 hpart with hpart | hpart
        · exact Or.inl ⟨part, hpart, rfl⟩
        · exact Or.inr (hdone part hpart)
    · obtain ⟨todo, done, hparts, htodo, hdone⟩ := hr.split hd o ho hL
      refine ⟨todo, done, hparts, fun part hpart hmem => ?_,
        fun part hpart => mem_enter.2 (Or.inr (hdone part hpart))⟩
      rcases mem_enter.1 hmem with ⟨q, hq, heq⟩ | hmem
      · have hpo : (⟨o, part⟩ : Place) ∈ h.places L :=
          mem_places.2 ⟨ho, hL, hparts ▸ List.mem_append_left _ hpart⟩
        have hentry : q.entry c.address ∈ (⟨o, part⟩ : Place).entries :=
          heq ▸ List.mem_cons_self
        have hsame := hd.inj hpo (hplace q hq) hentry List.mem_cons_self
        exact he (congrArg Place.object hsame)
      · exact htodo part hpart hmem

theorem visitParts_spec (hw : h.WellFormed) (hR : Region h succ L)
    (hvisit : VisitsObject h succ L bound visit) (hc : c ∈ h.objects) (hcL : c.address ∈ L)
    (hcp : c.address ∈ st.objMap.pointers) (hparts : parts.Sublist c.parts)
    (hown : entered c.address parts st.cycleDetector = own) (hr : Ready h L st)
    (hr' : Ready h L (enter c.address own st))
    (hb : h.unvisited (enter c.address own st) ≤ bound) :
    ∃ news, Walk h succ L ((own.reverse.flatMap ObjectPart.members).filterMap h.get)
        (h.slotEdges c.address (own.reverse.flatMap ObjectPart.members))
        ((own.reverse.flatMap ObjectPart.members).map PtrSlot.entry) (enter c.address own st)
        (visitParts (visitPtr h visit c.address) c.address parts st) news ∧
      Ready h L (visitParts (visitPtr h visit c.address) c.address parts st) := by
  have hsublist : own.Sublist c.parts := hown ▸ (entered_isPrefix _ _ _).sublist.trans hparts
  have hsub := hsublist.subset
  have hvisited : own.reverse.flatMap ObjectPart.visited =
      own.reverse.flatMap ObjectPart.members :=
    List.flatMap_congr fun part hpart => hw.visited_eq hc (hsub (List.mem_reverse.1 hpart))
  rw [visitParts_eq, hown, hvisited]
  have hplace : ∀ s ∈ own.reverse.flatMap ObjectPart.members, ∃ part,
      (⟨c, part⟩ : Place) ∈ h.places L ∧ s ∈ part.members ∧ part ∈ own := by
    intro s hs
    obtain ⟨part, hpart, hs⟩ := List.mem_flatMap.1 hs
    have hpart := List.mem_reverse.1 hpart
    exact ⟨part, mem_places.2 ⟨hc, hcL, hsub hpart⟩, hs, hpart⟩
  refine visitMembers_spec hw hR hvisit _ _ ?_ ?_ hr' hcp ?_ hb
  · intro s hs
    obtain ⟨part, hp, hsp, hpart⟩ := hplace s hs
    exact ⟨part, hp, hsp, mem_enter.2 (Or.inl ⟨part, hpart, rfl⟩)⟩
  · intro hd
    have hall := (c.flatMap_parts_perm.map PtrSlot.entry).nodup_iff.2 (hd.nodup_members hc hcL)
    refine (((List.reverse_perm own).flatMap_right _).map _).nodup_iff.2 ?_
    exact hall.sublist ((hsublist.flatMap _).map _)
  · intro hd s hs hmem
    obtain ⟨part, hp, hsp, hpart⟩ := hplace s hs
    rcases mem_enter.1 hmem with ⟨q, hq, he⟩ | hmem
    · have hq : (⟨c, q⟩ : Place) ∈ h.places L := mem_places.2 ⟨hc, hcL, hsub hq⟩
      exact hd.member_ne hp hsp hq he.symm
    · exact hr.free hd _ hp (entered_fresh (hown ▸ hpart)) s hsp hmem

end Enter

theorem slotEdges_flatMap (h : Heap) (parts : List ObjectPart) :
    h.slotEdges c.address (parts.flatMap ObjectPart.members) =
      (parts.map (Place.mk c)).flatMap h.edges := by
  unfold slotEdges
  rw [List.filterMap_flatMap, List.map_flatMap, List.flatMap_map]
  rfl

theorem Walk.enter {own : List ObjectPart} {st st' : VisitState} {news : List Place}
    (hw : h.WellFormed) (hR : Region h succ L) (hc : c ∈ h.objects) (hcL : c.address ∈ L)
    (hcp : c.address ∈ st.objMap.pointers) (hown : own ⊆ c.parts)
    (hfresh : ∀ part ∈ own, part.entry c.address ∉ st.cycleDetector.visitedObjects)
    (hnodup : (own.map (ObjectPart.entry c.address)).Nodup)
    (w : Walk h succ L ((own.reverse.flatMap ObjectPart.members).filterMap h.get)
      (h.slotEdges c.address (own.reverse.flatMap ObjectPart.members))
      ((own.reverse.flatMap ObjectPart.members).map PtrSlot.entry)
      (Heap.enter c.address own st) st' news) :
    Walk h succ L [c.address] [] [] st st' (own.reverse.map (Place.mk c) ++ news) := by
  have hedges : [] ++ (own.reverse.map (Place.mk c) ++ news).flatMap h.edges =
      h.slotEdges c.address (own.reverse.flatMap ObjectPart.members) ++ news.flatMap h.edges := by
    rw [List.nil_append, List.flatMap_append, slotEdges_flatMap]
  have hgrows : st.cycleDetector.visitedObjects ⊆
      (Heap.enter c.address own st).cycleDetector.visitedObjects :=
    fun _ hk => mem_enter.2 (Or.inr hk)
  have hplace : ∀ n ∈ own.reverse.map (Place.mk c), n.object = c ∧ n.part ∈ own := by
    intro n hn
    obtain ⟨part, hpart, rfl⟩ := List.mem_map.1 hn
    exact ⟨rfl, List.mem_reverse.1 hpart⟩
  have hmark : ∀ n ∈ own.reverse.map (Place.mk c),
      n.entry ∈ (Heap.enter c.address own st).cycleDetector.visitedObjects := by
    intro n hn
    obtain ⟨rfl, hpart⟩ := hplace n hn
    exact mem_enter.2 (Or.inl ⟨n.part, hpart, rfl⟩)
  have hself : ReachIn succ L [c.address] c.address := .start (List.mem_singleton_self _) hcL
  refine ⟨?_, ?_, ?_, ?_, ?_, fun _ hk => w.grows (hgrows hk), ?_, ?_, ?_, ?_, ?_⟩
  · rw [hedges]
    exact w.counts
  · rw [hedges]
    exact w.pointers
  · rw [hedges]
    exact w.children
  · intro n hn
    rcases List.mem_append.1 hn with hn | hn
    · obtain ⟨rfl, hpart⟩ := hplace n hn
      exact ⟨mem_places.2 ⟨hc, hcL, hown hpart⟩, hfresh n.part hpart⟩
    · obtain ⟨hp, hnew⟩ := w.fresh n hn
      exact ⟨hp, fun hk => hnew (hgrows hk)⟩
  · refine List.Nodup.append ?_ w.nodup fun n h₁ h₂ => (w.fresh n h₂).2 (hmark n h₁)
    exact (List.nodup_reverse.2 hnodup.of_map).map fun _ _ he => congrArg Place.part he
  · intro n hn
    rcases List.mem_append.1 hn with hn | hn
    · exact w.grows (hmark n hn)
    · exact w.marks n hn
  · intro k hk
    rcases w.bounded k hk with hk | hk | ⟨n, hn, hk⟩
    · rcases mem_enter.1 hk with ⟨part, hpart, rfl⟩ | hk
      · exact Or.inr (Or.inr ⟨⟨c, part⟩, List.mem_append_left _
          (List.mem_map_of_mem (List.mem_reverse.2 hpart)), List.mem_cons_self⟩)
      · exact Or.inl hk
    · obtain ⟨s, hs, rfl⟩ := List.mem_map.1 hk
      obtain ⟨part, hpart, hs⟩ := List.mem_flatMap.1 hs
      exact Or.inr (Or.inr ⟨⟨c, part⟩, List.mem_append_left _ (List.mem_map_of_mem hpart),
        Place.member_entry_mem hs⟩)
    · exact Or.inr (Or.inr ⟨n, List.mem_append_right _ hn, hk⟩)
  · rw [hedges]
    exact w.closed
  · intro n hn
    rcases List.mem_append.1 hn with hn | hn
    · obtain ⟨rfl, -⟩ := hplace n hn
      exact hself
    · refine (w.reach n hn).trans fun b hb hL => ?_
      obtain ⟨s, hs, hg⟩ := List.mem_filterMap.1 hb
      obtain ⟨part, hpart, hs⟩ := List.mem_flatMap.1 hs
      have hsc := HeapObject.mem_members_iff.2 ⟨part, hown (List.mem_reverse.1 hpart), hs⟩
      exact hself.step (hR.get_mem hw hc hcL hsc hg).1 hL
  · intro n hn
    rcases List.mem_append.1 hn with hn | hn
    · obtain ⟨rfl, -⟩ := hplace n hn
      exact (w.pointers _).2 (Or.inl hcp)
    · exact w.listed n hn

end Visit

theorem visitObject_spec (hw : h.WellFormed) (hR : Region h succ L) (fuel : ℕ) :
    VisitsObject h succ L fuel (visitObject h fuel) := by
  induction fuel with
  | zero =>
    intro st o hr ho hL hp hb
    refine ⟨[], (Walk.refl st).mono (List.nil_subset _) (List.nil_subset _), hr, ?_⟩
    intro hv
    by_contra hnew
    change o.entry ∉ st.cycleDetector.visitedObjects at hnew
    have hmem : o ∈ h.objects.filter fun o => o.entry ∉ st.cycleDetector.visitedObjects :=
      List.mem_filter.2 ⟨ho, by simpa using hnew⟩
    have := List.length_pos_of_mem hmem
    unfold unvisited at hb
    omega
  | succ fuel ih =>
    intro st o hr ho hL hp hb
    by_cases hv : o.hasVisit = true
    · have hst : visitObject h (fuel + 1) st o =
          visitParts (visitPtr h (visitObject h fuel) o.address) o.address o.parts st := by
        simp [visitObject, hv]
      obtain ⟨members, bases, hparts⟩ :=
        HeapObject.splitMembers_eq_cons o.typeIndex o.bases o.members
      rw [hst]
      by_cases hold : o.entry ∈ st.cycleDetector.visitedObjects
      · -- the class of the object itself has been entered
        have hnone : entered o.address o.parts st.cycleDetector = [] := by
          rw [HeapObject.parts, hparts]
          exact if_pos hold
        rw [visitParts_eq, hnone]
        exact ⟨[], (Walk.refl st).mono (List.nil_subset _) (List.nil_subset _), hr, fun _ => hold⟩
      · have hmark : o.entry ∈ (enter o.address (entered o.address o.parts st.cycleDetector)
            st).cycleDetector.visitedObjects := by
          have hown : ObjectPart.entry o.address ⟨o.typeIndex, none, members⟩ ∉
              st.cycleDetector.visitedObjects := hold
          rw [HeapObject.parts, hparts, entered, if_neg hown]
          exact mem_enter.2 (Or.inl ⟨_, List.mem_cons_self, rfl⟩)
        have hown : entered o.address o.parts st.cycleDetector ⊆ o.parts :=
          (entered_isPrefix _ _ _).subset
        have hready : Ready h L
            (enter o.address (entered o.address o.parts st.cycleDetector) st) := by
          refine ready_enter hr ho hL hown fun hd => ?_
          obtain ⟨todo, done, hsplit, htodo, hdone⟩ := hr.split hd o ho hL
          have hn := hd.nodup_parts ho hL
          rw [hsplit, List.map_append] at hn
          refine ⟨[], done, ?_, fun _ hm => absurd hm List.not_mem_nil, hdone⟩
          rw [hsplit, entered_eq (List.nodup_append.1 hn).1 htodo hdone, List.nil_append]
        have hb' : h.unvisited (enter o.address
            (entered o.address o.parts st.cycleDetector) st) ≤ fuel :=
          Nat.le_of_lt_succ ((unvisited_lt ho (fun _ hk => mem_enter.2 (Or.inr hk)) hold
            hmark).trans_le hb)
        obtain ⟨news, w, hr'⟩ := visitParts_spec hw hR ih ho hL hp (List.Sublist.refl _) rfl hr
          hready hb'
        exact ⟨_, w.enter hw hR ho hL hp hown (fun _ => entered_fresh) (entered_nodup _ _ _), hr',
          fun _ => w.grows hmark⟩
    · have hst : visitObject h (fuel + 1) st o = st := by simp [visitObject, hv]
      rw [hst]
      exact ⟨[], (Walk.refl st).mono (List.nil_subset _) (List.nil_subset _), hr,
        fun hv' => absurd hv' hv⟩

end Walk

end Heap
end AetherClient
