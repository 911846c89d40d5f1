import AetherClient.DomainLoad

set_option autoImplicit false

namespace AetherClient.Domain
open FileSystem

section Restored
variable (lib : StdLibrary)

def RestoredMembers {A : Type} (members : List (Member A)) : Prop :=
  ∀ x ∈ members, Restorable lib x.ty x.value

def RestoredContents {A : Type} (contents : List (LevelContents A)) : Prop :=
  ∀ l ∈ contents, RestoredMembers lib l.members

def RestoredHeap (s : LoadState) : Prop := ∀ o ∈ s.heap, RestoredContents lib o.contents

variable {lib} {saved : ObjClassData}

theorem restoredMembers_append {A : Type} {xs ys : List (Member A)} (hxs : RestoredMembers lib xs)
    (hys : RestoredMembers lib ys) : RestoredMembers lib (xs ++ ys) :=
  List.forall_mem_append.mpr ⟨hxs, hys⟩

theorem restoredContents_fresh (levels : List Level) :
    RestoredContents lib (levels.map (freshLevel ℕ)) := by
  have hfresh : ∀ ms : List MemberTy, RestoredMembers lib (ms.map (Member.fresh ℕ)) := by
    intro ms x hx
    obtain ⟨m, -, rfl⟩ := List.mem_map.mp hx
    exact restorable_fresh lib m
  intro l hl
  obtain ⟨level, -, rfl⟩ := List.mem_map.mp hl
  exact restoredMembers_append (hfresh level.before) (hfresh level.after)

section Levels
variable {loadPtr : ObjId → ObjFlags → LoadState → Option (ObjPtr ℕ × LoadState)} {I : LoadState → Prop}

theorem loadMembers_restored
    (hptr : ∀ id flags s ptr s', loadPtr id flags s = some (ptr, s') → I s → I s') (ms : List MemberTy) :
    Yields I (RestoredMembers lib) (loadMembers lib dropped loadPtr ms) := by
  induction ms with
  | nil =>
    intro is s ys is' s' h hs
    cases h
    exact ⟨fun x hx => absurd hx List.not_mem_nil, hs⟩
  | cons m ms ih =>
    intro is s ys is' s' h hs
    obtain ⟨⟨v, is₁, s₁⟩, hone, h⟩ := Option.bind_eq_some_iff.mp h
    obtain ⟨⟨vs, is₂, s₂⟩, hrest, h⟩ := Option.bind_eq_some_iff.mp h
    cases h
    obtain ⟨hv, hs₁⟩ := loadMember_restorable hptr m _ _ _ _ _ hone hs
    obtain ⟨hvs, hs₂⟩ := ih _ _ _ _ _ hrest hs₁
    exact ⟨List.forall_mem_cons.mpr ⟨hv, hvs⟩, hs₂⟩

theorem loadLevels_restored
    (hptr : ∀ id flags s ptr s', loadPtr id flags s = some (ptr, s') → I s → I s')
    (hvisit : ∀ s v, I s → I { s with visited := v :: s.visited })
    {id : ObjId} {levels : List Level} {s s' : LoadState} {contents : List (LevelContents ℕ)}
    (h : loadLevels lib dropped saved loadPtr id levels s = some (contents, s')) (hs : I s) :
    RestoredContents lib contents ∧ I s' := by
  induction levels generalizing s s' contents with
  | nil =>
    cases h
    exact ⟨fun l hl => absurd hl List.not_mem_nil, hs⟩
  | cons l levels ih =>
    rw [loadLevels] at h
    split at h
    · cases h
      exact ⟨restoredContents_fresh (l :: levels), hs⟩
    · obtain ⟨⟨before, is₁, s₁⟩, hbefore, h⟩ := Option.bind_eq_some_iff.mp h
      obtain ⟨⟨base, s₂⟩, hbase, h⟩ := Option.bind_eq_some_iff.mp h
      obtain ⟨⟨after, is₃, s₃⟩, hafter, h⟩ := Option.bind_eq_some_iff.mp h
      cases h
      obtain ⟨hrestored, hs₁⟩ := loadMembers_restored hptr l.before _ _ _ _ _ hbefore (hvisit _ _ hs)
      obtain ⟨hrestored', hs₂⟩ := ih hbase hs₁
      obtain ⟨hrestored'', hs₃⟩ := loadMembers_restored hptr l.after _ _ _ _ _ hafter hs₂
      exact ⟨List.forall_mem_cons.mpr ⟨restoredMembers_append hrestored hrestored'', hrestored'⟩, hs₃⟩

end Levels

variable {registry : Classes}

def KeptByConstruction (lib : StdLibrary) (overflow : Overflow) (registry : Classes)
    (saved : ObjClassData) (I : LoadState → Prop) : Prop :=
  ∀ (loadPtr : ObjId → ObjFlags → LoadState → Option (ObjPtr ℕ × LoadState)) (o : LoadedObject)
    (levels : List Level) (contents : List (LevelContents ℕ)) (s s₁ : LoadState),
    (∀ id flags s ptr s', loadPtr id flags s = some (ptr, s') → I s → I s') →
    registry.getMostRelatedFactory (enumerate saved o.id) = some (o.classId, levels) →
    o.contents = levels.map (freshLevel ℕ) →
    loadLevels lib overflow saved loadPtr o.id levels { s with heap := s.heap ++ [o] } =
      some (contents, s₁) →
    I s → I { s₁ with heap := s₁.heap.set s.heap.length { o with contents := contents } }

/-- An object that is found, or that no class was found for, leaves the domain as it is. So what the
construction keeps is kept by the whole load. -/
theorem loadRootImpl_keeps {overflow : Overflow} {I : LoadState → Prop}
    (hI : KeptByConstruction lib overflow registry saved I) {fuel : ℕ} (id : ObjId) (flags : ObjFlags)
    (s : LoadState) (ptr : ObjPtr ℕ) (s' : LoadState)
    (h : loadRootImpl lib overflow registry saved fuel id flags s = some (ptr, s')) (hs : I s) :
    I s' := by
  induction fuel generalizing id flags s ptr s' with
  | zero => cases h
  | succ fuel ih =>
    rw [loadRootImpl] at h
    split at h
    · cases h
      exact hs
    · split at h
      · cases h
        exact hs
      · split at h
        · cases h
          exact hs
        · next classId levels hfactory =>
          obtain ⟨⟨contents, s₁⟩, hlevels, h⟩ := Option.bind_eq_some_iff.mp h
          cases h
          exact hI _ ⟨id, flags &&& ~~~kUnloaded, classId, _⟩ levels contents s s₁ ih hfactory rfl
            hlevels hs

theorem keptByConstruction_restored :
    KeptByConstruction lib dropped registry saved (RestoredHeap lib) := by
  intro loadPtr o levels contents s s₁ hptr _ ho hlevels hs
  have hcreated : RestoredHeap lib { s with heap := s.heap ++ [o] } := by
    refine List.forall_mem_append.mpr ⟨hs, List.forall_mem_singleton.mpr ?_⟩
    exact ho ▸ restoredContents_fresh levels
  obtain ⟨hcontents, hs₁⟩ := loadLevels_restored hptr (fun _ _ h => h) hlevels hcreated
  intro o' ho'
  obtain ho' | rfl := List.mem_or_eq_of_mem_set ho'
  · exact hs₁ o' ho'
  · exact hcontents

end Restored

namespace Graph
variable {lib : StdLibrary} {registry : Classes} (G : Graph lib registry)

theorem Copies.restorable {G : Graph lib registry} {s : LoadState} {i : Fin G.size} {o : LoadedObject}
    (h : G.Copies s i o) (ho : RestoredContents lib o.contents) :
    RestoredMembers lib (G.object i).members := by
  intro x hx
  obtain ⟨l, hl, hx⟩ := List.mem_flatMap.mp hx
  obtain ⟨l', hl', hlevel⟩ := exists_of_forall₂ h.contents hl
  obtain ⟨y, hy, hmember⟩ := exists_of_forall₂ hlevel.members hx
  have hrestored := ho l' hl' y hy
  obtain ⟨hrelated⟩ := hmember
  exact hrestored.of_related hrelated

theorem restorable_of_isomorphic {fuel : ℕ} {root : Fin G.size} {flags : ObjFlags} {ptr : ObjPtr ℕ}
    {s : LoadState} (h : G.saveLoad dropped fuel root flags = some (ptr, s))
    (hiso : G.Isomorphic root ptr s) {i : Fin G.size} (hi : G.Reachable root i) :
    RestoredMembers lib (G.object i).members := by
  obtain ⟨saved, -, hload⟩ := Option.bind_eq_some_iff.mp h
  have hheap : RestoredHeap lib s :=
    loadRootImpl_keeps keptByConstruction_restored _ _ _ _ _ hload
      fun o ho => absurd ho List.not_mem_nil
  obtain ⟨o, ho, hcopy⟩ := hiso.all i hi
  exact hcopy.restorable (hheap o ho)

end Graph

def objClass : ClassId := 0x81d46d73

def poopaClass : ClassId := 0x348a8459

def updateTime : Member (Fin 1) := ⟨.plain .timePoint, (1700000000123456789 : ℤ)⟩

def loopa : Member (Fin 1) := ⟨.objPtr, ObjPtr.object 0⟩

def poopa : SourceObject (Fin 1) :=
  ⟨1, 0, poopaClass, [⟨poopaClass, 0, [], [loopa]⟩, ⟨objClass, 0, [updateTime], []⟩]⟩

def poopaClasses : Classes where
  factories := [(poopaClass, poopa.contents.map LevelContents.level)]
  factories_nodup := List.nodup_singleton _
  -- `RegisterClass` does not enter what is derived from `Obj` itself
  derived := fun _ => []
  generation := fun _ => 0
  derived_generation := by
    intro base c hc
    cases hc
  depth := 0
  generation_le := fun _ => Nat.le_refl 0

theorem declares_poopa :
    Declares poopaClasses poopaClass (poopa.contents.map LevelContents.level) where
  factory := rfl
  last := rfl
  first := rfl
  nodup := by decide
  bases := by
    intro l hl hexists hne
    have hall : ∀ l ∈ poopa.contents.map LevelContents.level,
        poopaClasses.isExisting l.classId → l.classId = poopaClass := by decide
    exact absurd (hall l hl hexists) hne

def poopaGraph : Graph nanosecondLibrary poopaClasses where
  size := 1
  object := fun _ => poopa
  id_valid := fun _ => by decide
  id_injective := fun i j _ => Subsingleton.elim i j
  declared := fun _ => declares_poopa
  proper := by
    intro i x hx
    have hmembers : poopa.members = [loopa, updateTime] := rfl
    rw [hmembers, List.mem_pair] at hx
    obtain rfl | rfl := hx
    · trivial
    · have hrange : FitsTimePoint 1 1700000000123456789 := by
        constructor <;> decide
      exact hrange

def poopaRoot : Fin poopaGraph.size := ⟨0, Nat.one_pos⟩

def loadedPoopa : LoadedObject :=
  ⟨1, 0, poopaClass, [⟨poopaClass, 0, [], [⟨.objPtr, ObjPtr.object 0⟩]⟩,
    ⟨objClass, 0, [⟨.plain .timePoint, (1700000000123456000 : ℤ)⟩], []⟩]⟩

end AetherClient.Domain
