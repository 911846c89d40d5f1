import AetherClient.DomainRoundTrip

set_option autoImplicit false

/-!
# Loading a copy

`LoadCopy` loads the records of an object into a new object with another id. While that goes on the
copy has the id of the original, so the classes of the original count as visited. The domain does not
know the copy by this id, though, so a pointer back to the original makes a second object, which then
is not loaded.
-/
namespace AetherClient.Domain
open FileSystem Relation

/-- The copy is in the domain under `copyId`; its records are those of `id`. -/
def loadCopy (lib : StdLibrary) (overflow : Overflow) (registry : Classes) (saved : ObjClassData)
    (fuel : ℕ) (id : ObjId) (flags : ObjFlags) (copyId : ObjId) (s : LoadState) :
    Option (ObjPtr ℕ × LoadState) :=
  let s : LoadState := { s with visited := [] }
  if id = 0 ∨ copyId = 0 then some (.empty 0 kUnloaded, s)
  else
    match s.find copyId with
    | some n => some (.object n, s)
    | none =>
      match registry.getMostRelatedFactory (enumerate saved id) with
      -- there must be a factory, the code asserts that
      | none => some (.empty 0 kUnloaded, s)
      | some (classId, levels) => do
        let n := s.heap.length
        let o : LoadedObject := ⟨copyId, flags &&& ~~~kUnloaded &&& ~~~kUnloadedByDefault, classId,
          levels.map (freshLevel ℕ)⟩
        let (contents, s) ← loadLevels lib overflow saved (loadRootImpl lib overflow registry saved fuel)
          id levels { s with heap := s.heap ++ [o] }
        return (.object n, { s with heap := s.heap.set n { o with contents := contents } })

/-- A graph with its records. They have sizes that were counted and times in microseconds. -/
structure StoredGraph (lib : StdLibrary) (registry : Classes) extends Graph lib registry where
  saved : ObjClassData
  holds : ∀ i, toGraph.Holds saved i
  restorable : ∀ i, ∀ x ∈ (object i).members, Restorable lib x.ty x.value

section Stored
variable {lib : StdLibrary} {registry : Classes}

def Graph.stored (G : Graph lib registry) (root : Fin G.size) (hreachable : ∀ i, G.Reachable root i)
    (hrestorable : ∀ i, ∀ x ∈ (G.object i).members, Restorable lib x.ty x.value) :
    StoredGraph lib registry where
  toGraph := G
  saved := (G.saveRoot (G.size + 1) root).getD []
  holds := by
    obtain ⟨saved, hsave, hholds⟩ := Graph.saveRoot_holds (Nat.lt_succ_self G.size) root
    intro i
    rw [hsave]
    exact hholds i (hreachable i)
  restorable := hrestorable

/-- The copy has the stored members of the root, and all objects that can be reached from it were
created and have theirs. -/
structure Graph.CompleteCopy (G : Graph lib registry) (root : Fin G.size) (copyId : ObjId)
    (ptr : ObjPtr ℕ) (s : LoadState) : Prop where
  copy : ∃ n o, ptr = .object n ∧ s.heap[n]? = some o ∧ o.id = copyId ∧
    o.classId = (G.object root).classId ∧
    List.Forall₂ (RelatedLevel (Matches G.ident s.placed)) (G.object root).contents o.contents
  reached : ∀ i, TransGen G.Leads root i → ∃ o ∈ s.heap, G.Copies s i o

end Stored

namespace StoredGraph
variable {lib : StdLibrary} {registry : Classes} {G : StoredGraph lib registry} {root : Fin G.size}
variable {overflow : Overflow} {fuel : ℕ} {flags : ObjFlags} {copyId : ObjId} {s s' : LoadState}

def blankCopy (G : StoredGraph lib registry) (root : Fin G.size) (flags : ObjFlags) (copyId : ObjId) :
    LoadedObject :=
  ⟨copyId, flags &&& ~~~kUnloaded &&& ~~~kUnloadedByDefault, (G.object root).classId,
    ((G.object root).contents.map LevelContents.level).map (freshLevel ℕ)⟩

theorem loadCopy_eq (hvalid : copyId ≠ 0) :
    loadCopy lib overflow registry G.saved fuel (G.object root).id flags copyId {} =
      (loadLevels lib overflow G.saved (loadRootImpl lib overflow registry G.saved fuel)
        (G.object root).id ((G.object root).contents.map LevelContents.level)
        { heap := [G.blankCopy root flags copyId] }).map fun p =>
          (.object 0, { p.2 with
            heap := p.2.heap.set 0 { G.blankCopy root flags copyId with contents := p.1 } }) := by
  rw [loadCopy, if_neg (not_or.mpr ⟨G.id_valid root, hvalid⟩)]
  simp only [LoadState.find, List.findIdx?_nil, (G.holds root).factory]
  rw [Option.map_eq_bind]
  rfl

section Complete
variable (hback : ¬TransGen G.Leads root root) (hnew : ∀ i, (G.object i).id ≠ copyId)

def original (G : StoredGraph lib registry) (root : Fin G.size) (copyId id : ObjId) : ObjId :=
  if id = copyId then (G.object root).id else id

include hnew in
theorem original_eq_iff {i : Fin G.size} (hi : i ≠ root) (id : ObjId) :
    G.original root copyId id = (G.object i).id ↔ id = (G.object i).id := by
  rw [original]
  split
  · next hid =>
    have hne : (G.object root).id ≠ (G.object i).id := fun h => hi (G.id_injective root i h).symm
    simp [hne, hid, (hnew i).symm]
  · rfl

include hnew in
theorem matches_of_original (p : ObjPtr (Fin G.size)) (q : ObjPtr ℕ)
    (hp : ∀ a ∈ ObjPtr.target p, unloaded (G.ident a).2 = false → a ≠ root)
    (h : Matches G.ident (s.rename (G.original root copyId)).placed p q) :
    Matches G.ident s.placed p q := by
  refine h.mono_of_target ?_
  intro a ha hflag n hn
  rw [LoadState.placed_rename] at hn
  obtain ⟨id, hid, heq⟩ := Option.map_eq_some_iff.mp hn
  exact hid.trans (congrArg some ((original_eq_iff hnew (hp a ha hflag) id).mp heq))

include hnew in
theorem contents_of_original {i : Fin G.size} {contents : List (LevelContents ℕ)}
    (hi : ∀ j, G.Leads i j → j ≠ root)
    (h : List.Forall₂ (RelatedLevel (Matches G.ident (s.rename (G.original root copyId)).placed))
      (G.object i).contents contents) :
    List.Forall₂ (RelatedLevel (Matches G.ident s.placed)) (G.object i).contents contents := by
  refine forall₂_imp_of_mem h fun l hl _ => ?_
  refine RelatedLevel.mono_of_targets (matches_of_original hnew) fun a ha hflag => hi a ⟨?_, hflag⟩
  obtain ⟨x, hx, ha⟩ := List.mem_flatMap.mp ha
  exact List.mem_flatMap.mpr ⟨x, List.mem_flatMap.mpr ⟨l, hl, hx⟩, ha⟩

include hback hnew in
theorem loadCopy_isomorphic (hvalid : copyId ≠ 0) (overflow : Overflow) (hfuel : G.size < fuel)
    (flags : ObjFlags) :
    ∃ s contents, loadCopy lib overflow registry G.saved fuel (G.object root).id flags copyId {} =
        some (.object 0, s) ∧
      s.heap[0]? = some { G.blankCopy root flags copyId with contents := contents } ∧
      G.Isomorphic root (.object 0) (s.rename (G.original root copyId)) := by
  set o := G.blankCopy root flags copyId with ho
  have hid : G.original root copyId o.id = (G.object root).id := if_pos rfl
  have hne : ∀ i, TransGen G.Leads root i → i ≠ root := by
    rintro i hi rfl
    exact hback hi
  have hloads := Graph.loadRootImpl_loads (G.original root copyId)
    (fun i hi => TransGen.to_reflTransGen hi) (fun i j hi hj => TransGen.tail hi hj)
    (fun i hi => original_eq_iff hnew (hne i hi))
    (fun i _ => G.holds i) (fun i _ => G.restorable i) overflow fuel
  obtain ⟨contents, s, hlevels, hfill, hlength⟩ := Graph.loadLevels_new (s := {}) hloads .refl
    (fun j hj => TransGen.single hj) (G.holds root) (G.restorable root) hid rfl overflow
    Graph.consistent_nil (Nat.lt_succ_of_lt hfuel) nofun
  have hcopy : (s.heap.set 0 { o with contents := contents })[0]? = some { o with contents := contents } :=
    List.getElem?_set_self hlength
  refine ⟨{ s with heap := s.heap.set 0 { o with contents := contents } }, contents, ?_, hcopy,
    hfill.isomorphic ?_⟩
  · rw [loadCopy_eq hvalid, ← ho]
    exact congrArg (Option.map _) hlevels
  · rw [LoadState.placed_rename]
    change ((s.heap.set 0 { o with contents := contents })[0]?.map LoadedObject.id).map _ = _
    rw [hcopy]
    exact congrArg some hid

include hback hnew in
theorem loadCopy_complete (hvalid : copyId ≠ 0) (overflow : Overflow) (hfuel : G.size < fuel)
    (flags : ObjFlags) :
    ∃ ptr s, loadCopy lib overflow registry G.saved fuel (G.object root).id flags copyId {} =
      some (ptr, s) ∧ G.CompleteCopy root copyId ptr s := by
  obtain ⟨s, contents, hload, hcopy, hiso⟩ :=
    loadCopy_isomorphic hback hnew hvalid overflow hfuel flags
  have hleads : ∀ i, G.Reachable root i → ∀ j, G.Leads i j → j ≠ root := by
    rintro i hi j hj rfl
    exact hback (TransGen.tail' hi hj)
  refine ⟨.object 0, s, hload, ⟨0, _, rfl, hcopy, rfl, rfl, ?_⟩, ?_⟩
  · have hid : G.original root copyId copyId = (G.object root).id := if_pos rfl
    obtain ⟨i, -, hcopies⟩ := hiso.only _ (List.mem_map_of_mem (List.mem_of_getElem? hcopy))
    obtain rfl : i = root := G.id_injective i root (hcopies.id.symm.trans hid)
    exact contents_of_original hnew (hleads i .refl) hcopies.contents
  · intro i hi
    have hne : i ≠ root := by
      rintro rfl
      exact hback hi
    obtain ⟨o', ho', hcopies⟩ := hiso.all i hi.to_reflTransGen
    obtain ⟨o, ho, rfl⟩ := List.mem_map.mp ho'
    exact ⟨o, ho, (original_eq_iff hnew hne o.id).mp hcopies.id, hcopies.classId,
      contents_of_original hnew (hleads i hi.to_reflTransGen) hcopies.contents⟩

end Complete

structure Blank (G : StoredGraph lib registry) (root : Fin G.size) (s : LoadState) : Prop where
  visited : ((G.object root).id, (G.object root).classId) ∈ s.visited
  blank : ∀ o ∈ s.heap, o.id = (G.object root).id → ∀ l ∈ o.contents, memberTargets l.members = []

theorem memberTargets_fresh (l : Level) : memberTargets (freshLevel ℕ l).members = [] := by
  have hfresh : ∀ ms : List MemberTy, memberTargets (ms.map (Member.fresh ℕ)) = [] := by
    intro ms
    refine List.flatMap_eq_nil_iff.mpr fun x hx => ?_
    obtain ⟨m, -, rfl⟩ := List.mem_map.mp hx
    exact targets_fresh m
  rw [LevelContents.members, memberTargets, List.flatMap_append]
  exact List.append_eq_nil_iff.mpr ⟨hfresh l.before, hfresh l.after⟩

theorem Blank.visit (h : G.Blank root s) (v : ObjId × ClassId) :
    G.Blank root { s with visited := v :: s.visited } :=
  ⟨List.mem_cons_of_mem v h.visited, h.blank⟩

theorem Blank.add (h : G.Blank root s) {o : LoadedObject}
    (ho : o.id = (G.object root).id → ∀ l ∈ o.contents, memberTargets l.members = []) :
    G.Blank root { s with heap := s.heap ++ [o] } :=
  ⟨h.visited, List.forall_mem_append.mpr ⟨h.blank, List.forall_mem_singleton.mpr ho⟩⟩

theorem Blank.set (h : G.Blank root s) {o : LoadedObject} (n : ℕ)
    (ho : o.id = (G.object root).id → ∀ l ∈ o.contents, memberTargets l.members = []) :
    G.Blank root { s with heap := s.heap.set n o } := by
  refine ⟨h.visited, fun o' ho' => ?_⟩
  obtain ho' | rfl := List.mem_or_eq_of_mem_set ho'
  · exact h.blank o' ho'
  · exact ho

theorem loadLevels_blank {loadPtr : ObjId → ObjFlags → LoadState → Option (ObjPtr ℕ × LoadState)}
    (h : ((G.object root).id, (G.object root).classId) ∈ s.visited) :
    loadLevels lib overflow G.saved loadPtr (G.object root).id
        ((G.object root).contents.map LevelContents.level) s =
      some (((G.object root).contents.map LevelContents.level).map (freshLevel ℕ), s) := by
  obtain ⟨l, hl, hclass⟩ := Option.map_eq_some_iff.mp (G.first_classId root)
  obtain ⟨ls, hls⟩ := List.head?_eq_some_iff.mp hl
  rw [hls, List.map_cons, loadLevels, if_pos (by rw [LevelContents.level, hclass]; exact h)]

theorem keptByConstruction_blank :
    KeptByConstruction lib dropped registry G.saved (G.Blank root) := by
  intro loadPtr o levels contents s s₁ hptr hfactory ho hlevels hs
  by_cases hid : o.id = (G.object root).id
  · rw [hid, (G.holds root).factory] at hfactory
    obtain ⟨-, rfl⟩ := Prod.mk.inj (Option.some.inj hfactory)
    have hfresh : ∀ l ∈ ((G.object root).contents.map LevelContents.level).map (freshLevel ℕ),
        memberTargets l.members = [] := by
      intro l hl
      obtain ⟨level, -, rfl⟩ := List.mem_map.mp hl
      exact memberTargets_fresh level
    rw [hid, loadLevels_blank (by exact hs.visited)] at hlevels
    cases hlevels
    exact (hs.add fun _ => ho ▸ hfresh).set _ fun _ => hfresh
  · obtain ⟨-, hs₁⟩ := loadLevels_restored hptr (fun _ v h => h.visit v) hlevels
      (hs.add fun heq => absurd heq hid)
    exact hs₁.set _ fun heq => absurd heq hid

theorem loadRootImpl_blank (id : ObjId) (flags : ObjFlags) (s : LoadState) (ptr : ObjPtr ℕ)
    (s' : LoadState) (h : loadRootImpl lib dropped registry G.saved fuel id flags s = some (ptr, s'))
    (hs : G.Blank root s) : G.Blank root s' :=
  loadRootImpl_keeps keptByConstruction_blank id flags s ptr s' h hs

theorem loadCopy_blank (hvalid : copyId ≠ 0) (hnew : (G.object root).id ≠ copyId) {ptr : ObjPtr ℕ}
    (h : loadCopy lib dropped registry G.saved fuel (G.object root).id flags copyId {} = some (ptr, s)) :
    G.Blank root s := by
  rw [loadCopy_eq hvalid] at h
  obtain ⟨⟨contents, s₁⟩, hlevels, h⟩ := Option.map_eq_some_iff.mp h
  cases h
  have hother : ∀ contents, { G.blankCopy root flags copyId with contents := contents }.id =
      (G.object root).id → ∀ l ∈ contents, memberTargets l.members = [] :=
    fun _ heq => absurd heq.symm hnew
  obtain ⟨l, hl, hclass⟩ := Option.map_eq_some_iff.mp (G.first_classId root)
  obtain ⟨ls, hls⟩ := List.head?_eq_some_iff.mp hl
  -- from the first class on the original counts as visited
  have hvisited : G.Blank root
      { heap := [G.blankCopy root flags copyId], visited := [((G.object root).id, l.classId)] } := by
    refine ⟨?_, List.forall_mem_singleton.mpr (hother _)⟩
    rw [hclass]
    exact List.mem_cons_self
  rw [hls, List.map_cons, loadLevels, if_neg List.not_mem_nil] at hlevels
  obtain ⟨⟨before, is₁, s₂⟩, hbefore, hlevels⟩ := Option.bind_eq_some_iff.mp hlevels
  obtain ⟨⟨base, s₃⟩, hbase, hlevels⟩ := Option.bind_eq_some_iff.mp hlevels
  obtain ⟨⟨after, is₃, s₄⟩, hafter, hlevels⟩ := Option.bind_eq_some_iff.mp hlevels
  cases hlevels
  obtain ⟨-, hs₂⟩ := loadMembers_restored loadRootImpl_blank _ _ _ _ _ _ hbefore hvisited
  obtain ⟨-, hs₃⟩ := loadLevels_restored loadRootImpl_blank (fun _ v h => h.visit v) hbase hs₂
  obtain ⟨-, hs₄⟩ := loadMembers_restored loadRootImpl_blank _ _ _ _ _ _ hafter hs₃
  exact hs₄.set 0 (hother _)

theorem not_completeCopy_of_back (hvalid : copyId ≠ 0) (hnew : (G.object root).id ≠ copyId)
    (hback : TransGen G.Leads root root) {ptr : ObjPtr ℕ}
    (h : loadCopy lib dropped registry G.saved fuel (G.object root).id flags copyId {} = some (ptr, s)) :
    ¬G.CompleteCopy root copyId ptr s := by
  intro hcomplete
  obtain ⟨o, ho, hcopies⟩ := hcomplete.reached root hback
  obtain ⟨j, hj, -⟩ := TransGen.head'_iff.mp hback
  obtain ⟨l, hl, n, hn, -⟩ := hcopies.exists_placed hj
  rw [(loadCopy_blank hvalid hnew h).blank o ho hcopies.id l hl] at hn
  cases hn

/-- The copy and all that can be reached from it are loaded exactly if no way leads back to the
original. -/
theorem loadCopy_complete_iff (G : StoredGraph lib registry) (root : Fin G.size) (flags : ObjFlags)
    (copyId : ObjId) (hvalid : copyId ≠ 0) (hnew : ∀ i, (G.object i).id ≠ copyId) :
    (∀ overflow fuel, G.size < fuel → ∃ ptr s,
      loadCopy lib overflow registry G.saved fuel (G.object root).id flags copyId {} = some (ptr, s) ∧
        G.CompleteCopy root copyId ptr s) ↔
    ¬TransGen G.Leads root root := by
  constructor
  · intro h hback
    obtain ⟨ptr, s, hload, hcomplete⟩ := h dropped (G.size + 1) (Nat.lt_succ_self _)
    exact not_completeCopy_of_back hvalid (hnew root) hback hload hcomplete
  · intro hback overflow fuel hfuel
    exact loadCopy_complete hback hnew hvalid overflow hfuel flags

end StoredGraph

def wholePoopa {n : ℕ} (id : ObjId) (ptr : ObjPtr (Fin n)) : SourceObject (Fin n) :=
  ⟨id, 0, poopaClass, [⟨poopaClass, 0, [], [⟨.objPtr, ptr⟩]⟩,
    ⟨objClass, 0, [⟨.plain .timePoint, (1700000000123456000 : ℤ)⟩], []⟩]⟩

section Poopas
variable {n : ℕ} {ids : Fin n → ObjId} {ptrs : Fin n → ObjPtr (Fin n)}

theorem forall_members_wholePoopa {id : ObjId} {ptr : ObjPtr (Fin n)} {P : Member (Fin n) → Prop}
    (hptr : P ⟨.objPtr, ptr⟩) (htime : P ⟨.plain .timePoint, (1700000000123456000 : ℤ)⟩) :
    ∀ x ∈ (wholePoopa id ptr).members, P x := by
  intro x hx
  have hmembers : (wholePoopa id ptr).members =
      [⟨.objPtr, ptr⟩, ⟨.plain .timePoint, (1700000000123456000 : ℤ)⟩] := rfl
  rw [hmembers, List.mem_pair] at hx
  obtain rfl | rfl := hx
  · exact hptr
  · exact htime

theorem targets_wholePoopa (id : ObjId) (ptr : ObjPtr (Fin n)) :
    memberTargets (wholePoopa id ptr).members = ObjPtr.target ptr := by
  cases ptr <;> rfl

theorem restorable_wholePoopa (id : ObjId) (ptr : ObjPtr (Fin n)) :
    ∀ x ∈ (wholePoopa id ptr).members, Restorable nanosecondLibrary x.ty x.value := by
  have htime : (1000 : ℤ) ∣ 1700000000123456000 := by decide
  exact forall_members_wholePoopa trivial htime

def poopas (ids : Fin n → ObjId) (ptrs : Fin n → ObjPtr (Fin n)) (hvalid : ∀ i, ids i ≠ 0)
    (hids : ∀ i j, ids i = ids j → i = j) (hproper : ∀ i, ProperPtr (ptrs i)) :
    Graph nanosecondLibrary poopaClasses where
  size := n
  object := fun i => wholePoopa (ids i) (ptrs i)
  id_valid := hvalid
  id_injective := hids
  declared := fun _ => declares_poopa
  proper := by
    intro i
    have hrange : FitsTimePoint 1 1700000000123456000 := by
      constructor <;> decide
    exact forall_members_wholePoopa (hproper i) hrange

theorem poopas_leads {hvalid : ∀ i, ids i ≠ 0} {hids : ∀ i j, ids i = ids j → i = j}
    {hproper : ∀ i, ProperPtr (ptrs i)} (i j : Fin n) :
    Graph.Leads (poopas ids ptrs hvalid hids hproper) i j ↔ j ∈ ObjPtr.target (ptrs i) := by
  change j ∈ memberTargets (wholePoopa (ids i) (ptrs i)).members ∧ unloaded 0 = false ↔ _
  rw [targets_wholePoopa]
  exact and_iff_left rfl

end Poopas

def loopGraph : Graph nanosecondLibrary poopaClasses :=
  poopas (fun _ : Fin 1 => 1) (fun _ => .object ⟨0, Nat.one_pos⟩) (by decide) (by decide)
    fun _ => trivial

def loopStored : StoredGraph nanosecondLibrary poopaClasses :=
  loopGraph.stored (⟨0, Nat.one_pos⟩ : Fin 1)
    (fun i => Subsingleton.elim (⟨0, Nat.one_pos⟩ : Fin 1) i ▸ .refl)
    fun _ => restorable_wholePoopa _ _

def chainGraph : Graph nanosecondLibrary poopaClasses :=
  poopas (fun i : Fin 2 => if i = 0 then 1 else 2)
    (fun i => if i = 0 then .object 1 else .empty 0 kUnloaded) (by decide) (by decide) (by
      intro i
      split
      · trivial
      · exact .inr rfl)

theorem chainGraph_leads (i j : Fin 2) : Graph.Leads chainGraph i j ↔ i = 0 ∧ j = 1 := by
  refine (poopas_leads i j).trans ?_
  split
  · next hi => simp [hi, ObjPtr.target]
  · next hi => simp [hi, ObjPtr.target]

def chainStored : StoredGraph nanosecondLibrary poopaClasses :=
  chainGraph.stored (0 : Fin 2) (by
    intro i
    by_cases hi : i = (0 : Fin 2)
    · exact hi ▸ .refl
    · have hone : i = (1 : Fin 2) := Fin.eq_one_of_ne_zero i hi
      exact .single ((chainGraph_leads 0 i).mpr ⟨rfl, hone⟩))
    fun _ => restorable_wholePoopa _ _

theorem loadCopy_complete_chain :
    ∃ ptr s, loadCopy nanosecondLibrary dropped poopaClasses chainStored.saved 3
        (chainStored.object (0 : Fin 2)).id 0 7 {} = some (ptr, s) ∧
      Graph.CompleteCopy chainStored.toGraph (0 : Fin 2) 7 ptr s := by
  have hback : ¬Relation.TransGen (Graph.Leads chainGraph) (0 : Fin 2) (0 : Fin 2) := by
    intro h
    obtain ⟨i, -, hi⟩ := Relation.TransGen.tail'_iff.mp h
    exact absurd ((chainGraph_leads i 0).mp hi).2 (by decide)
  have hnew : ∀ i : Fin 2, (chainStored.object i).id ≠ 7 := by decide
  exact (StoredGraph.loadCopy_complete_iff chainStored (0 : Fin 2) 0 7 (by decide) hnew).mpr hback
    dropped 3 (Nat.lt_succ_self 2)

/-- The copy of an object with a pointer to itself: the pointer leads to a second object with the id
of the original, which has the members of a new one. -/
theorem loadCopy_not_complete :
    (loadCopy nanosecondLibrary dropped poopaClasses loopStored.saved 2 1 0 7 {}).map
        (fun p => p.2.heap.map fun o => (o.id, o.contents.map fun l => memberTargets l.members)) =
      some [(7, [[1], []]), (1, [[], []])] ∧
    ¬∀ (lib : StdLibrary) (registry : Classes) (G : StoredGraph lib registry) (root : Fin G.size)
      (flags : ObjFlags) (copyId : ObjId), copyId ≠ 0 → (∀ i, (G.object i).id ≠ copyId) →
      ∀ overflow fuel, G.size < fuel → ∃ ptr s,
        loadCopy lib overflow registry G.saved fuel (G.object root).id flags copyId {} = some (ptr, s) ∧
          G.CompleteCopy root copyId ptr s := by
  refine ⟨by decide +kernel, fun h => ?_⟩
  have hnew : ∀ i : Fin 1, (loopStored.object i).id ≠ 7 := by decide
  obtain ⟨ptr, s, hload, hcomplete⟩ :=
    h _ _ loopStored (0 : Fin 1) 0 7 (by decide) hnew dropped 2 (Nat.lt_succ_self 1)
  have hback : Relation.TransGen (Graph.Leads loopGraph) (0 : Fin 1) (0 : Fin 1) :=
    .single ((poopas_leads 0 0).mpr List.mem_cons_self)
  exact StoredGraph.not_completeCopy_of_back (by decide) (hnew 0) hback hload hcomplete

end AetherClient.Domain
