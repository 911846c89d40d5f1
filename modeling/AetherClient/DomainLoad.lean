import AetherClient.DomainMemberLoads
import AetherClient.DomainSave

set_option autoImplicit false

namespace AetherClient.Domain
open FileSystem

section Relations
variable {A B : Type} {r r' : ObjPtr A → ObjPtr B → Prop} {P : A → Prop}

theorem RelatedMember.mono_of_targets (hr : ∀ p q, (∀ a ∈ ObjPtr.target p, P a) → r p q → r' p q)
    {x : Member A} {y : Member B} (hx : ∀ a ∈ targets x.ty x.value, P a) (h : RelatedMember r x y) :
    RelatedMember r' x y := by
  obtain ⟨h⟩ := h
  exact ⟨h.mono_of_targets hr hx⟩

theorem RelatedLevel.mono_of_targets (hr : ∀ p q, (∀ a ∈ ObjPtr.target p, P a) → r p q → r' p q)
    {l : LevelContents A} {l' : LevelContents B} (hl : ∀ a ∈ memberTargets l.members, P a)
    (h : RelatedLevel r l l') : RelatedLevel r' l l' := by
  have hmember : ∀ x ∈ l.members, ∀ y, RelatedMember r x y → RelatedMember r' x y := fun x hx y =>
    RelatedMember.mono_of_targets hr fun a ha => hl a (List.mem_flatMap.mpr ⟨x, hx, ha⟩)
  refine ⟨h.classId, forall₂_imp_of_mem h.before fun x hx => ?_, forall₂_imp_of_mem h.after fun x hx => ?_⟩
  · exact hmember x (List.mem_append_left _ hx)
  · exact hmember x (List.mem_append_right _ hx)

theorem RelatedMember.mono (hr : ∀ p q, r p q → r' p q) {x : Member A} {y : Member B}
    (h : RelatedMember r x y) : RelatedMember r' x y :=
  h.mono_of_targets (P := fun _ => True) (fun p q _ => hr p q) fun _ _ => trivial

theorem RelatedLevel.mono (hr : ∀ p q, r p q → r' p q) {l : LevelContents A} {l' : LevelContents B}
    (h : RelatedLevel r l l') : RelatedLevel r' l l' :=
  h.mono_of_targets (P := fun _ => True) (fun p q _ => hr p q) fun _ _ => trivial

end Relations

theorem RelatedLevel.members {A B : Type} {r : ObjPtr A → ObjPtr B → Prop} {l : LevelContents A}
    {l' : LevelContents B} (h : RelatedLevel r l l') :
    List.Forall₂ (RelatedMember r) l.members l'.members :=
  List.rel_append h.before h.after

section Places
variable {s : LoadState} {n : ℕ} {id : ObjId}

theorem LoadState.placed_of_find (h : s.find id = some n) : s.placed n = some id := by
  obtain ⟨hn, heq, -⟩ := List.findIdx?_eq_some_iff_getElem.mp h
  rw [placed, List.getElem?_eq_getElem hn, Option.map_some, of_decide_eq_true heq]

theorem LoadState.not_found (h : s.find id = none) : ∀ o ∈ s.heap, o.id ≠ id := by
  intro o ho
  simpa using List.findIdx?_eq_none_iff.mp h o ho

theorem LoadState.mem_of_placed (h : s.placed n = some id) : ∃ o ∈ s.heap, o.id = id := by
  obtain ⟨o, ho, hid⟩ := Option.map_eq_some_iff.mp h
  exact ⟨o, List.mem_of_getElem? ho, hid⟩

def LoadedObject.rename (ren : ObjId → ObjId) (o : LoadedObject) : LoadedObject :=
  { o with id := ren o.id }

def LoadState.rename (ren : ObjId → ObjId) (s : LoadState) : LoadState :=
  { s with heap := s.heap.map (LoadedObject.rename ren) }

variable {ren : ObjId → ObjId}

@[simp] theorem LoadState.rename_id (s : LoadState) : s.rename (fun id => id) = s := by
  have hsame : LoadedObject.rename (fun id => id) = id := rfl
  rw [rename, hsame, List.map_id]

theorem LoadState.placed_rename : (s.rename ren).placed n = (s.placed n).map ren := by
  simp only [placed, rename, List.getElem?_map, Option.map_map]
  rfl

theorem LoadState.find_rename (hren : ∀ id', ren id' = id ↔ id' = id) : (s.rename ren).find id = s.find id := by
  rw [find, find, rename, List.findIdx?_map]
  apply congrFun (congrArg _ _)
  funext o
  simp [LoadedObject.rename, hren]

end Places

namespace Graph
variable {lib : StdLibrary} {registry : Classes} (G : Graph lib registry) (root : Fin G.size)

structure Consistent (s : LoadState) : Prop where
  once : (s.heap.map LoadedObject.id).Nodup
  live : ∀ o ∈ s.heap, ∃ i, G.Reachable root i ∧ o.id = (G.object i).id
  visited : ∀ id c, (id, c) ∈ s.visited → ∃ o ∈ s.heap, o.id = id

/-- From `s` to `s'` copies of objects were added. No classes were visited of the objects that had
been there before, except for those with an id in `own`. -/
structure Extends (own : Set ObjId) (s s' : LoadState) : Prop where
  before : G.Consistent root s
  after : G.Consistent root s'
  added : ∃ added, s'.heap = s.heap ++ added ∧
    ∀ o ∈ added, ∃ i, G.Reachable root i ∧ G.Copies s' i o
  visited : ∀ o ∈ s.heap, o.id ∉ own → ∀ c, (o.id, c) ∈ s'.visited → (o.id, c) ∈ s.visited

variable {G root} {own : Set ObjId} {s s' s'' : LoadState} {o : LoadedObject}

theorem Consistent.refl (h : G.Consistent root s) : G.Extends root own s s where
  before := h
  after := h
  added := ⟨[], (List.append_nil _).symm, fun _ ho => absurd ho List.not_mem_nil⟩
  visited := fun _ _ _ _ hc => hc

theorem Consistent.length_le (h : G.Consistent root s) : s.heap.length ≤ G.size := by
  have hsub : s.heap.map LoadedObject.id ⊆ (List.finRange G.size).map fun i => (G.object i).id := by
    intro id hid
    obtain ⟨o, ho, rfl⟩ := List.mem_map.mp hid
    obtain ⟨i, -, hi⟩ := h.live o ho
    exact List.mem_map.mpr ⟨i, List.mem_finRange i, hi.symm⟩
  simpa using (List.subperm_of_subset h.once hsub).length_le

theorem Extends.prefix_heap (h : G.Extends root own s s') : s.heap <+: s'.heap := by
  obtain ⟨added, heq, -⟩ := h.added
  exact ⟨added, heq.symm⟩

theorem Extends.placed (h : G.Extends root own s s') (n : ℕ) (id : ObjId) (hn : s.placed n = some id) :
    s'.placed n = some id := by
  obtain ⟨o, ho, hid⟩ := Option.map_eq_some_iff.mp hn
  have hlt := (List.getElem?_eq_some_iff.mp ho).1
  obtain ⟨added, heq, -⟩ := h.added
  rw [LoadState.placed, heq, List.getElem?_append_left hlt]
  exact hn

theorem Copies.mono (hplaced : ∀ n id, s.placed n = some id → s'.placed n = some id) {i : Fin G.size}
    {o : LoadedObject} (h : G.Copies s i o) : G.Copies s' i o where
  id := h.id
  classId := h.classId
  contents := h.contents.imp fun _ _ => RelatedLevel.mono fun _ _ => Matches.mono hplaced

theorem Copies.exists_placed {i j : Fin G.size} (h : G.Copies s i o) (hleads : G.Leads i j) :
    ∃ l ∈ o.contents, ∃ n ∈ memberTargets l.members, s.placed n = some (G.object j).id := by
  obtain ⟨l, hl, hj⟩ := mem_memberTargets hleads.1
  obtain ⟨x, hx, hj⟩ := List.mem_flatMap.mp hj
  obtain ⟨l', hl', hlevel⟩ := exists_of_forall₂ h.contents hl
  obtain ⟨y, hy, hmember⟩ := exists_of_forall₂ hlevel.members hx
  obtain ⟨hrelated⟩ := hmember
  obtain ⟨n, hn, hplaced⟩ := hrelated.exists_placed hj hleads.2
  exact ⟨l', hl', n, List.mem_flatMap.mpr ⟨_, hy, hn⟩, hplaced⟩

theorem Extends.trans (h : G.Extends root own s s') (h' : G.Extends root own s' s'') :
    G.Extends root own s s'' where
  before := h.before
  after := h'.after
  added := by
    obtain ⟨added, heq, hadded⟩ := h.added
    obtain ⟨added', heq', hadded'⟩ := h'.added
    refine ⟨added ++ added', by rw [heq', heq, List.append_assoc], ?_⟩
    intro o ho
    obtain ho | ho := List.mem_append.mp ho
    · obtain ⟨i, hi, hcopy⟩ := hadded o ho
      exact ⟨i, hi, hcopy.mono h'.placed⟩
    · exact hadded' o ho
  visited := fun o ho hown c hc =>
    h.visited o ho hown c (h'.visited o (h.prefix_heap.subset ho) hown c hc)

theorem Extends.mono {own' : Set ObjId} (h : G.Extends root own s s') (hsub : own ⊆ own') :
    G.Extends root own' s s' where
  before := h.before
  after := h.after
  added := h.added
  visited := fun o ho hown => h.visited o ho fun hmem => hown (hsub hmem)

theorem Consistent.visit (h : G.Consistent root s) {id : ObjId} (hid : ∃ o ∈ s.heap, o.id = id)
    (classId : ClassId) :
    G.Extends root {id} s { s with visited := (id, classId) :: s.visited } where
  before := h
  after := by
    refine ⟨h.once, h.live, ?_⟩
    intro id' c hc
    obtain heq | hc := List.mem_cons.mp hc
    · obtain rfl : id' = id := congrArg Prod.fst heq
      exact hid
    · exact h.visited id' c hc
  added := ⟨[], (List.append_nil _).symm, fun _ ho => absurd ho List.not_mem_nil⟩
  visited := by
    intro o _ hown c hc
    obtain heq | hc := List.mem_cons.mp hc
    · exact absurd (congrArg Prod.fst heq) hown
    · exact hc

theorem Consistent.create (h : G.Consistent root s) {i : Fin G.size} (hi : G.Reachable root i)
    {o : LoadedObject} (hid : o.id = (G.object i).id) (hnew : ∀ o' ∈ s.heap, o'.id ≠ o.id) :
    G.Consistent root { s with heap := s.heap ++ [o] } where
  once := Tables.nodup_concat h.once hnew
  live := by
    intro o' ho'
    obtain ho' | ho' := List.mem_append.mp ho'
    · exact h.live o' ho'
    · rw [List.mem_singleton.mp ho']
      exact ⟨i, hi, hid⟩
  visited := by
    intro id c hc
    obtain ⟨o', ho', heq⟩ := h.visited id c hc
    exact ⟨o', List.mem_append_left _ ho', heq⟩

theorem LoadState.placed_congr (h : s'.heap.map LoadedObject.id = s.heap.map LoadedObject.id) (n : ℕ) :
    s'.placed n = s.placed n := by
  have hget := congrArg (fun ids => ids[n]?) h
  simp only [List.getElem?_map] at hget
  exact hget

theorem Consistent.congr (h : G.Consistent root s)
    (hids : s'.heap.map LoadedObject.id = s.heap.map LoadedObject.id) (hvisited : s'.visited = s.visited) :
    G.Consistent root s' where
  once := hids ▸ h.once
  live := by
    intro o ho
    have hmem : o.id ∈ s.heap.map LoadedObject.id := hids ▸ List.mem_map_of_mem ho
    obtain ⟨o', ho', hid⟩ := List.mem_map.mp hmem
    exact hid ▸ h.live o' ho'
  visited := by
    intro id c hc
    obtain ⟨o, ho, rfl⟩ := h.visited id c (hvisited ▸ hc)
    have hmem : o.id ∈ s'.heap.map LoadedObject.id := hids ▸ List.mem_map_of_mem ho
    exact List.mem_map.mp hmem

theorem Extends.fill (h : G.Extends root {o.id} { s with heap := s.heap ++ [o] } s')
    (hs : G.Consistent root s) (hnew : ∀ o' ∈ s.heap, o'.id ≠ o.id) {i : Fin G.size}
    (hi : G.Reachable root i) (o' : LoadedObject) (hid : o'.id = o.id) (hcopy : G.Copies s' i o') :
    G.Extends root ∅ s { s' with heap := s'.heap.set s.heap.length o' } := by
  obtain ⟨added, heq, hadded⟩ := h.added
  have hset : s'.heap.set s.heap.length o' = s.heap ++ o' :: added := by
    rw [heq, List.append_assoc, List.set_append_right _ _ (Nat.le_refl _), Nat.sub_self]
    rfl
  have hids : (s'.heap.set s.heap.length o').map LoadedObject.id = s'.heap.map LoadedObject.id := by
    rw [hset, heq]
    simp [hid]
  have hmono : ∀ n id, s'.placed n = some id →
      LoadState.placed { s' with heap := s'.heap.set s.heap.length o' } n = some id :=
    fun n id hn => (LoadState.placed_congr hids n).trans hn
  refine ⟨hs, h.after.congr hids rfl, ⟨o' :: added, hset, ?_⟩, ?_⟩
  · intro o'' ho''
    obtain rfl | ho'' := List.mem_cons.mp ho''
    · exact ⟨i, hi, hcopy.mono hmono⟩
    · obtain ⟨j, hj, hcopy⟩ := hadded o'' ho''
      exact ⟨j, hj, hcopy.mono hmono⟩
  · intro o'' ho'' _
    exact h.visited o'' (List.mem_append_left _ ho'') (hnew o'' ho'')

variable (G root) in
structure Loads (fuel : ℕ) (s s' : LoadState) : Prop where
  extends_heap : G.Extends root ∅ s s'
  enough : G.size < fuel + s.heap.length

theorem Extends.loads {fuel : ℕ} (h : G.Extends root own s s') (hs : G.size < fuel + s.heap.length) :
    G.Loads root fuel s' s' where
  extends_heap := h.after.refl
  enough := by
    have hle := h.prefix_heap.length_le
    omega

theorem Loads.trans {fuel : ℕ} (h : G.Loads root fuel s s') (h' : G.Loads root fuel s' s'') :
    G.Loads root fuel s s'' :=
  ⟨h.extends_heap.trans h'.extends_heap, h.enough⟩

-- While a copy of an object is loaded, it may be in the domain under another id. `ren` gives it the
-- id of the object, and the objects that are `live` keep theirs.
section Object
variable {fuel : ℕ} {saved : ObjClassData} {ren : ObjId → ObjId} {live : Fin G.size → Prop}
variable {loadPtr : ObjId → ObjFlags → LoadState → Option (ObjPtr ℕ × LoadState)}

theorem loadMembers_loads {R : LoadState → LoadState → Prop} {placed : LoadState → ℕ → Option ObjId}
    (h : LoadsRoots R G.ident placed loadPtr live) {i : Fin G.size} (hi : ∀ j, G.Leads i j → live j)
    (hrestorable : ∀ x ∈ (G.object i).members, Restorable lib x.ty x.value)
    {xs : List (Member (Fin G.size))} (hxs : ∀ x ∈ xs, x ∈ (G.object i).members)
    (overflow : Overflow) (y : List UInt8) (offset : ℕ) (result : ReadResult) (hs : R s s) :
    ∃ ys offset' result' s', loadMembers lib overflow loadPtr (xs.map Member.ty)
        ⟨writeMembers lib G.ident xs ++ y, offset, result⟩ s = some (ys, ⟨y, offset', result'⟩, s') ∧
      R s s' ∧ List.Forall₂ (RelatedMember (Matches G.ident (placed s'))) xs ys := by
  induction xs generalizing offset result s with
  | nil => exact ⟨[], offset, result, s, rfl, hs, .nil⟩
  | cons x xs ih =>
    obtain ⟨hx, hxs⟩ := List.forall_mem_cons.mp hxs
    have hmember := memberLoads h overflow (G.proper i x hx) (hrestorable x hx) fun j hj hflag =>
      hi j ⟨List.mem_flatMap.mpr ⟨x, hx, hj⟩, hflag⟩
    obtain ⟨w, s₁, hw, hloads, hrelated⟩ :=
      hmember (writeMembers lib G.ident xs ++ y) offset result s hs
    obtain ⟨ws, offset', result', s₂, hws, hloads', hall⟩ := ih hxs
      (offset + (write lib G.ident x.ty x.value).length) .yes (h.right hloads)
    refine ⟨⟨x.ty, w⟩ :: ws, offset', result', s₂, ?_, h.trans hloads hloads', .cons ?_ hall⟩
    · change (loadMember lib overflow loadPtr x.ty
        ⟨(write lib G.ident x.ty x.value ++ writeMembers lib G.ident xs) ++ y, offset, result⟩ s).bind _ = _
      rw [List.append_assoc, hw, Option.bind_some]
      simp only [hws, Option.bind_eq_bind, Option.bind_some]
      rfl
    · exact ⟨hrelated.mono (h.matches_mono hloads')⟩

theorem record_bytes (l : LevelContents (Fin G.size)) :
    (l.record lib G.ident).map UInt8.ofBitVec =
      writeMembers lib G.ident l.before ++ writeMembers lib G.ident l.after := by
  rw [LevelContents.record, List.map_map]
  exact List.map_id _

variable (G root) in
/-- What the domain does for the pointers, with the copy under the id of its original. -/
def LoadsRenamed (ren : ObjId → ObjId) (live : Fin G.size → Prop) (fuel : ℕ)
    (loadPtr : ObjId → ObjFlags → LoadState → Option (ObjPtr ℕ × LoadState)) : Prop :=
  LoadsRoots (fun s s' => G.Loads root fuel (s.rename ren) (s'.rename ren)) G.ident
    (fun s => (s.rename ren).placed) loadPtr live

theorem loadLevels_loads (h : G.LoadsRenamed root ren live fuel loadPtr)
    {i : Fin G.size} (hi : ∀ j, G.Leads i j → live j) (hholds : G.Holds saved i)
    (hrestorable : ∀ x ∈ (G.object i).members, Restorable lib x.ty x.value)
    {levels : List (LevelContents (Fin G.size))} (hsub : ∀ l ∈ levels, l ∈ (G.object i).contents)
    (hnodup : (levels.map LevelContents.classId).Nodup) (overflow : Overflow)
    (hs : G.Loads root fuel (s.rename ren) (s.rename ren))
    (hid : ∃ o ∈ (s.rename ren).heap, o.id = (G.object i).id)
    (hnew : ∀ l ∈ levels, ((G.object i).id, l.classId) ∉ s.visited) :
    ∃ contents s', loadLevels lib overflow saved loadPtr (G.object i).id
        (levels.map LevelContents.level) s = some (contents, s') ∧
      G.Extends root {(G.object i).id} (s.rename ren) (s'.rename ren) ∧
      List.Forall₂ (RelatedLevel (Matches G.ident (s'.rename ren).placed)) levels contents := by
  induction levels generalizing s with
  | nil => exact ⟨[], s, rfl, hs.extends_heap.before.refl, .nil⟩
  | cons l levels ih =>
    obtain ⟨hl, hlevels⟩ := List.nodup_cons.mp hnodup
    obtain ⟨hmem, hsub⟩ := List.forall_mem_cons.mp hsub
    have hmembers : ∀ x ∈ l.before ++ l.after, x ∈ (G.object i).members :=
      fun x hx => List.mem_flatMap.mpr ⟨l, hmem, hx⟩
    set s₁ : LoadState := { s with visited := ((G.object i).id, l.classId) :: s.visited } with hs₁
    have hvisit : G.Extends root {(G.object i).id} (s.rename ren) (s₁.rename ren) :=
      hs.extends_heap.before.visit hid l.classId
    obtain ⟨before, offset, result, s₂, hload₂, hloads₂, hrelated₂⟩ := loadMembers_loads h hi hrestorable
      (fun x hx => hmembers x (List.mem_append_left _ hx)) overflow
      (writeMembers lib G.ident l.after) 0 .no (hvisit.loads hs.enough)
    have hto₂ := hvisit.trans (hloads₂.extends_heap.mono (Set.empty_subset _))
    obtain ⟨o, ho, hoid⟩ := hid
    have hnew₂ : ∀ l' ∈ levels, ((G.object i).id, l'.classId) ∉ s₂.visited := by
      intro l' hl' hvisited
      rw [← hoid] at hvisited
      have hvisited := hloads₂.extends_heap.visited o ho (Set.notMem_empty _) _ hvisited
      rw [hoid] at hvisited
      obtain heq | hvisited := List.mem_cons.mp hvisited
      · exact hl (List.mem_map.mpr ⟨l', hl', congrArg Prod.snd heq⟩)
      · exact hnew l' (List.mem_cons_of_mem l hl') hvisited
    obtain ⟨base, s₃, hload₃, hextends₃, hrelated₃⟩ := ih hsub hlevels (h.right hloads₂)
      ⟨o, hto₂.prefix_heap.subset ho, hoid⟩ hnew₂
    obtain ⟨after, _, _, s₄, hload₄, hloads₄, hrelated₄⟩ := loadMembers_loads h hi hrestorable
      (fun x hx => hmembers x (List.mem_append_right _ hx)) overflow [] offset result
      ((hto₂.trans hextends₃).loads hs.enough)
    rw [List.append_nil] at hload₄
    have hto₄ := hextends₃.trans (hloads₄.extends_heap.mono (Set.empty_subset _))
    refine ⟨⟨l.classId, l.version, before, after⟩ :: base, s₄, ?_,
      hto₂.trans hto₄, .cons ⟨rfl, ?_, hrelated₄⟩ ?_⟩
    · rw [List.map_cons, loadLevels, if_neg (by exact hnew l List.mem_cons_self)]
      simp only [LevelContents.level, hholds.records l hmem, record_bytes, ← hs₁, hload₂, hload₃, hload₄,
        Option.bind_eq_bind, Option.bind_some]
      rfl
    · exact hrelated₂.imp fun _ _ => RelatedMember.mono fun _ _ => Matches.mono hto₄.placed
    · exact hrelated₃.imp fun _ _ => RelatedLevel.mono fun _ _ => Matches.mono hloads₄.extends_heap.placed

theorem loadLevels_new (h : G.LoadsRenamed root ren live fuel loadPtr) {o : LoadedObject}
    {i : Fin G.size} (hi : G.Reachable root i) (hleads : ∀ j, G.Leads i j → live j)
    (hholds : G.Holds saved i)
    (hrestorable : ∀ x ∈ (G.object i).members, Restorable lib x.ty x.value)
    (hid : ren o.id = (G.object i).id) (hclass : o.classId = (G.object i).classId) (overflow : Overflow)
    (hs : G.Consistent root (s.rename ren)) (henough : G.size < fuel + (s.heap.length + 1))
    (hnew : ∀ o' ∈ (s.rename ren).heap, o'.id ≠ (G.object i).id) :
    ∃ contents s', loadLevels lib overflow saved loadPtr (G.object i).id
        ((G.object i).contents.map LevelContents.level) { s with heap := s.heap ++ [o] } =
          some (contents, s') ∧
      G.Extends root ∅ (s.rename ren)
        (LoadState.rename ren { s' with heap := s'.heap.set s.heap.length { o with contents := contents } }) ∧
      s.heap.length < s'.heap.length := by
  have hstart : LoadState.rename ren { s with heap := s.heap ++ [o] } =
      { s.rename ren with heap := (s.rename ren).heap ++ [o.rename ren] } := by
    simp [LoadState.rename]
  have hnew' : ∀ o' ∈ (s.rename ren).heap, o'.id ≠ (o.rename ren).id := by
    intro o' ho' heq
    exact hnew o' ho' (heq.trans hid)
  have hcreated : G.Consistent root (LoadState.rename ren { s with heap := s.heap ++ [o] }) := by
    rw [hstart]
    exact hs.create hi hid hnew'
  have hloads : G.Loads root fuel (LoadState.rename ren { s with heap := s.heap ++ [o] })
      (LoadState.rename ren { s with heap := s.heap ++ [o] }) := by
    refine ⟨hcreated.refl, ?_⟩
    rwa [LoadState.rename, List.length_map, List.length_append, List.length_singleton]
  have hunvisited : ∀ l ∈ (G.object i).contents, ((G.object i).id, l.classId) ∉ s.visited := by
    intro l _ hmem
    obtain ⟨o', ho', hid'⟩ := hs.visited _ _ hmem
    exact hnew o' ho' hid'
  obtain ⟨contents, s', hlevels, hextends, hrelated⟩ := loadLevels_loads h hleads hholds hrestorable
    (fun l hl => hl) (G.nodup_classIds i) overflow hloads
    ⟨o.rename ren, List.mem_map_of_mem (List.mem_append_right _ List.mem_cons_self), hid⟩ hunvisited
  have hend : LoadState.rename ren
        { s' with heap := s'.heap.set s.heap.length { o with contents := contents } } =
      { s'.rename ren with
        heap := (s'.rename ren).heap.set (s.rename ren).heap.length
          (LoadedObject.rename ren { o with contents := contents }) } := by
    simp [LoadState.rename, List.map_set]
  have hlength := hextends.prefix_heap.length_le
  simp only [LoadState.rename, List.length_map, List.length_append, List.length_singleton] at hlength
  rw [hstart, ← hid] at hextends
  refine ⟨contents, s', hlevels, ?_, hlength⟩
  rw [hend]
  exact hextends.fill (o := o.rename ren) hs hnew' hi _ rfl ⟨hid, hclass, hrelated⟩

end Object

section Root
variable {saved : ObjClassData} {live : Fin G.size → Prop} (ren : ObjId → ObjId)

theorem loadRootImpl_loads (hlive : ∀ i, live i → G.Reachable root i)
    (hleads : ∀ i j, live i → G.Leads i j → live j)
    (hren : ∀ i, live i → ∀ id, ren id = (G.object i).id ↔ id = (G.object i).id)
    (hholds : ∀ i, live i → G.Holds saved i)
    (hrestorable : ∀ i, live i → ∀ x ∈ (G.object i).members, Restorable lib x.ty x.value)
    (overflow : Overflow) (fuel : ℕ) :
    G.LoadsRenamed root ren live fuel (loadRootImpl lib overflow registry saved fuel) := by
  have hright : ∀ {fuel s s'}, G.Loads root fuel s s' → G.Loads root fuel s' s' :=
    fun h => h.extends_heap.loads h.enough
  have hplaced : ∀ {fuel s s'}, G.Loads root fuel s s' → ∀ n id, s.placed n = some id → s'.placed n = some id :=
    fun h => h.extends_heap.placed
  induction fuel with
  | zero =>
    -- all objects are there already
    have hfull : ∀ s, ¬G.Loads root 0 s s := by
      intro s hs
      have hle := hs.extends_heap.before.length_le
      have hlt := hs.enough
      omega
    exact ⟨hright, Loads.trans, hplaced, fun _ s hs => absurd hs (hfull _),
      fun _ _ _ s hs => absurd hs (hfull _)⟩
  | succ fuel ih =>
    refine ⟨hright, Loads.trans, hplaced, fun flags s _ => by rw [loadRootImpl, if_pos rfl], ?_⟩
    intro i hi flags s hs
    have hs₀ := hs.extends_heap.before
    have hfound := LoadState.find_rename (s := s) (hren i hi)
    rw [ident, loadRootImpl, if_neg (G.id_valid i)]
    cases hfind : s.find (G.object i).id with
    | some n => exact ⟨n, s, rfl, hs, LoadState.placed_of_find (hfound.trans hfind)⟩
    | none =>
      have hnew := LoadState.not_found (hfound.trans hfind)
      simp only [(hholds i hi).factory]
      set o : LoadedObject := ⟨(G.object i).id, flags &&& ~~~kUnloaded, (G.object i).classId,
        ((G.object i).contents.map LevelContents.level).map (freshLevel ℕ)⟩ with ho
      have hid : ren o.id = (G.object i).id := (hren i hi o.id).mpr rfl
      have henough : G.size < fuel + (s.heap.length + 1) := by
        have hlt := hs.enough
        rw [LoadState.rename, List.length_map] at hlt
        omega
      obtain ⟨contents, s', hlevels, hfill, hlength⟩ := loadLevels_new ih (hlive i hi) (hleads i · hi)
        (hholds i hi) (hrestorable i hi) hid rfl overflow hs₀ henough hnew
      refine ⟨s.heap.length, _, ?_, ⟨hfill, hs.enough⟩, ?_⟩
      · simp only [hlevels, Option.bind_eq_bind, Option.bind_some]
        rfl
      · rw [LoadState.placed_rename, LoadState.placed, List.getElem?_set_self hlength]
        exact congrArg some hid

theorem Extends.isomorphic (h : G.Extends root ∅ {} s) {n : ℕ}
    (hroot : s.placed n = some (G.object root).id) : G.Isomorphic root (.object n) s := by
  have honly : ∀ o ∈ s.heap, ∃ i, G.Reachable root i ∧ G.Copies s i o := by
    obtain ⟨added, heq, hadded⟩ := h.added
    intro o ho
    rw [heq] at ho
    exact hadded o ho
  -- an object is there when its id has a place
  have hcopied : ∀ i n, s.placed n = some (G.object i).id → ∃ o ∈ s.heap, G.Copies s i o := by
    intro i n hn
    obtain ⟨o, ho, hid⟩ := LoadState.mem_of_placed hn
    obtain ⟨j, -, hcopy⟩ := honly o ho
    obtain rfl : j = i := G.id_injective j i (hcopy.id.symm.trans hid)
    exact ⟨o, ho, hcopy⟩
  refine ⟨⟨n, rfl, hroot⟩, h.after.once, ?_, honly⟩
  intro i hi
  induction hi with
  | refl => exact hcopied root n hroot
  | tail _ hleads ih =>
    obtain ⟨o, ho, hcopy⟩ := ih
    obtain ⟨-, -, n, -, hn⟩ := hcopy.exists_placed hleads
    exact hcopied _ n hn

theorem consistent_nil : G.Consistent root {} := ⟨List.nodup_nil, nofun, nofun⟩

theorem loadRoot_isomorphic (hholds : ∀ i, G.Reachable root i → G.Holds saved i)
    (hrestorable : ∀ i, G.Reachable root i → ∀ x ∈ (G.object i).members, Restorable lib x.ty x.value)
    (overflow : Overflow) {fuel : ℕ} (hfuel : G.size < fuel) (flags : ObjFlags) :
    ∃ ptr s, loadRoot lib overflow registry saved fuel (G.object root).id flags = some (ptr, s) ∧
      G.Isomorphic root ptr s := by
  have hloads := loadRootImpl_loads (fun id => id) (fun _ hi => hi) (fun _ _ => .tail)
    (fun _ _ _ => Iff.rfl) hholds hrestorable overflow fuel
  simp only [LoadsRenamed, LoadState.rename_id] at hloads
  obtain ⟨n, s, hload, hloads, hroot⟩ := hloads.object root .refl flags {} ⟨consistent_nil.refl, hfuel⟩
  exact ⟨.object n, s, hload, hloads.extends_heap.isomorphic hroot⟩

end Root

end Graph

end AetherClient.Domain
