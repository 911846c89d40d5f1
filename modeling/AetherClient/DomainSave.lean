import AetherClient.Domain
import Mathlib.Data.Fintype.Card
import Mathlib.Data.Set.Insert

set_option autoImplicit false

namespace AetherClient.Domain.Graph
open FileSystem StdMap

variable {lib : StdLibrary} {registry : Classes} (G : Graph lib registry)

/-- The base classes are stored first. -/
def storeLevels (levels : List (LevelContents (Fin G.size))) (objClasses : ClassData) : ClassData :=
  levels.foldr (fun l => storeClass l.classId l.version (l.record lib G.ident)) objClasses

theorem orderedClasses_storeLevels (levels : List (LevelContents (Fin G.size))) :
    OrderedClasses (G.storeLevels levels []) := by
  induction levels with
  | nil => exact orderedClasses_nil
  | cons l levels ih => exact ih.store

theorem lookup_storeLevels {levels : List (LevelContents (Fin G.size))}
    (hnodup : (levels.map LevelContents.classId).Nodup) (classId : ClassId) :
    (G.storeLevels levels []).lookup classId =
      (levels.find? fun l => l.classId = classId).map fun l => [(l.version, l.record lib G.ident)] := by
  induction levels with
  | nil => rfl
  | cons l levels ih =>
    obtain ⟨hl, hlevels⟩ := List.nodup_cons.mp hnodup
    change (storeClass l.classId l.version (l.record lib G.ident) (G.storeLevels levels [])).lookup
      classId = _
    rw [storeClass]
    by_cases hclass : l.classId = classId
    · have hnone : levels.find? (fun l => l.classId = classId) = none := by
        rw [List.find?_eq_none]
        intro l' hl' heq
        have heq := of_decide_eq_true heq
        exact hl (List.mem_map.mpr ⟨l', hl', heq.trans hclass.symm⟩)
      rw [List.find?_cons_of_pos (by simpa using hclass), hclass,
        lookup_access strictOrder_keyLess (G.orderedClasses_storeLevels levels).ascending, ih hlevels, hnone]
      rfl
    · rw [List.find?_cons_of_neg (by simpa using hclass),
        lookup_access_of_ne strictOrder_keyLess (Ne.symm hclass), ih hlevels]

theorem nodup_classIds (i : Fin G.size) : ((G.object i).contents.map LevelContents.classId).Nodup := by
  have hnodup := (G.declared i).nodup
  rwa [List.map_map] at hnodup

theorem first_classId (i : Fin G.size) :
    ((G.object i).contents.head?.map LevelContents.classId) = some (G.object i).classId := by
  have hfirst := (G.declared i).first
  rwa [List.head?_map, Option.map_map] at hfirst

structure Holds (saved : ObjClassData) (i : Fin G.size) : Prop where
  factory : registry.getMostRelatedFactory (enumerate saved (G.object i).id) =
    some ((G.object i).classId, (G.object i).contents.map LevelContents.level)
  records : ∀ l ∈ (G.object i).contents,
    load saved (G.object i).id l.classId l.version [] = l.record lib G.ident

theorem holds_of_classes {saved : ObjClassData} {i : Fin G.size}
    (h : classes saved (G.object i).id = G.storeLevels (G.object i).contents []) : G.Holds saved i := by
  have hnodup := G.nodup_classIds i
  have hordered := (G.orderedClasses_storeLevels (G.object i).contents).ascending
  have hlevel : ∀ l ∈ (G.object i).contents,
      (G.storeLevels (G.object i).contents []).lookup l.classId = some [(l.version, l.record lib G.ident)] := by
    intro l hl
    rw [G.lookup_storeLevels hnodup, Tables.find_of_key hnodup hl, Option.map_some]
  have hkey : ∀ c ∈ enumerate saved (G.object i).id, ∃ l ∈ (G.object i).contents, l.classId = c := by
    intro c hc
    rw [enumerate_eq, h] at hc
    obtain ⟨e, he, rfl⟩ := List.mem_map.mp hc
    have hsome := lookup_of_mem strictOrder_keyLess hordered he
    rw [G.lookup_storeLevels hnodup] at hsome
    obtain ⟨l, hfind, -⟩ := Option.map_eq_some_iff.mp hsome
    exact ⟨l, List.mem_of_find?_eq_some hfind, by simpa using List.find?_some hfind⟩
  obtain ⟨hfactory, hlast, hfirst, -, hbases⟩ := G.declared i
  constructor
  · apply Registry.getMostRelatedFactory_eq _ _ hfactory
    · refine ⟨hlast, by rw [Registry.isExisting, hfactory, Option.isSome_some], ?_⟩
      intro c hc hexists hne
      obtain ⟨l, hl, rfl⟩ := hkey c hc
      exact hbases l.level (List.mem_map.mpr ⟨l, hl, rfl⟩) hexists hne
    · obtain ⟨l, hl, hclass⟩ := Option.map_eq_some_iff.mp (G.first_classId i)
      rw [enumerate_eq, h, ← hclass]
      exact List.mem_map.mpr ⟨_, mem_of_lookup (hlevel l (List.mem_of_mem_head? hl)), rfl⟩
  · intro l hl
    rw [load_eq, h, hlevel l hl, Option.bind_some, List.lookup_cons, beq_self_eq_true]
    rfl

def Started (s : SaveState) (i : Fin G.size) : Prop :=
  ((G.object i).id, (G.object i).classId) ∈ s.visited

instance (s : SaveState) (i : Fin G.size) : Decidable (G.Started s i) :=
  inferInstanceAs (Decidable (_ ∈ _))

/-- The most derived class of an object is visited first. -/
structure Tidy (s : SaveState) : Prop where
  ordered : Ordered s.store
  first : ∀ i c, ((G.object i).id, c) ∈ s.visited → G.Started s i
  empty : ∀ i, ¬G.Started s i → classes s.store (G.object i).id = []

structure Done (s : SaveState) (i : Fin G.size) : Prop where
  classes : classes s.store (G.object i).id = G.storeLevels (G.object i).contents []
  targets : ∀ j ∈ memberTargets (G.object i).members, G.Started s j

/-- From `s` to `s'` objects were saved completely. Nothing was done for the objects that had been
started before, except for those in `own`. -/
structure Saves (own : Set (Fin G.size)) (s s' : SaveState) : Prop where
  tidy : G.Tidy s'
  started : ∀ i, G.Started s i → G.Started s' i
  stored : ∀ i ∉ own, G.Started s i → classes s'.store (G.object i).id = classes s.store (G.object i).id
  visited : ∀ i ∉ own, G.Started s i → ∀ c,
    ((G.object i).id, c) ∈ s'.visited → ((G.object i).id, c) ∈ s.visited
  done : ∀ i ∉ own, ¬G.Started s i → G.Started s' i → G.Done s' i

variable {G}

theorem Tidy.refl {own : Set (Fin G.size)} {s : SaveState} (h : G.Tidy s) : G.Saves own s s where
  tidy := h
  started := fun _ hi => hi
  stored := fun _ _ _ => rfl
  visited := fun _ _ _ _ hc => hc
  done := fun _ _ hnot hi => absurd hi hnot

section Saves
variable {own own' : Set (Fin G.size)} {s s' s'' : SaveState} {i : Fin G.size}

theorem Saves.done_later (h : G.Saves own s s') (hi : i ∉ own) (hdone : G.Done s i) (hstarted : G.Started s i) :
    G.Done s' i where
  classes := (h.stored i hi hstarted).trans hdone.classes
  targets := fun j hj => h.started j (hdone.targets j hj)

theorem Saves.trans (h : G.Saves own s s') (h' : G.Saves own s' s'') : G.Saves own s s'' where
  tidy := h'.tidy
  started := fun i hi => h'.started i (h.started i hi)
  stored := fun i hown hi => (h'.stored i hown (h.started i hi)).trans (h.stored i hown hi)
  visited := fun i hown hi c hc => h.visited i hown hi c (h'.visited i hown (h.started i hi) c hc)
  done := by
    intro i hown hnot hi
    by_cases hmid : G.Started s' i
    · exact h'.done_later hown (h.done i hown hnot hmid) hmid
    · exact h'.done i hown hmid hi

theorem Saves.mono (h : G.Saves own s s') (hsub : own ⊆ own') : G.Saves own' s s' where
  tidy := h.tidy
  started := h.started
  stored := fun i hi => h.stored i fun hown => hi (hsub hown)
  visited := fun i hi => h.visited i fun hown => hi (hsub hown)
  done := fun i hi => h.done i fun hown => hi (hsub hown)

theorem Saves.whole (h : G.Saves {i} s s') (hnot : ¬G.Started s i) (hdone : G.Done s' i) : G.Saves ∅ s s' where
  tidy := h.tidy
  started := h.started
  stored := fun j _ hj => h.stored j (fun hji => hnot (hji ▸ hj)) hj
  visited := fun j _ hj => h.visited j (fun hji => hnot (hji ▸ hj)) hj
  done := by
    intro j _ hj hj'
    by_cases hji : j = i
    · exact hji ▸ hdone
    · exact h.done j hji hj hj'

theorem Tidy.visit (h : G.Tidy s) {classId : ClassId}
    (hfirst : G.Started s i ∨ classId = (G.object i).classId) :
    G.Saves {i} s { s with visited := ((G.object i).id, classId) :: s.visited } := by
  have hmono : ∀ j, G.Started s j →
      G.Started { s with visited := ((G.object i).id, classId) :: s.visited } j :=
    fun j hj => List.mem_cons_of_mem _ hj
  have hother : ∀ j c, j ≠ i → ((G.object j).id, c) ∈ ((G.object i).id, classId) :: s.visited →
      ((G.object j).id, c) ∈ s.visited := by
    intro j c hji hc
    obtain heq | hc := List.mem_cons.mp hc
    · exact absurd (G.id_injective j i (congrArg Prod.fst heq)) hji
    · exact hc
  refine ⟨⟨h.ordered, ?_, ?_⟩, hmono, fun _ _ _ => rfl, fun j hj _ c => hother j c hj, ?_⟩
  · intro j c hc
    by_cases hji : j = i
    · subst hji
      obtain hstarted | rfl := hfirst
      · exact hmono j hstarted
      · exact List.mem_cons_self
    · exact hmono j (h.first j c (hother j c hji hc))
  · intro j hj
    exact h.empty j fun hstarted => hj (hmono j hstarted)
  · intro j hj hnot hstarted
    exact absurd (hother j _ hj hstarted) hnot

theorem Tidy.store (h : G.Tidy s) (hstarted : G.Started s i) (classId : ClassId) (version : Version)
    (os : Data) :
    G.Saves {i} s { s with store := store (G.object i).id classId version os s.store } := by
  have hother : ∀ j, j ≠ i → classes (FileSystem.store (G.object i).id classId version os s.store)
      (G.object j).id = classes s.store (G.object j).id := by
    intro j hji
    exact classes_store_of_ne fun heq => hji (G.id_injective j i heq)
  refine ⟨⟨h.ordered.store, h.first, ?_⟩, fun _ hj => hj, fun j hj _ => hother j hj,
    fun _ _ _ _ hc => hc, fun _ _ hnot hj => absurd hj hnot⟩
  intro j hj
  rw [hother j fun hji => hj (hji ▸ hstarted)]
  exact h.empty j hj

end Saves

variable (G) in
/-- The objects that are still to be started bound the depth. -/
def pending (s : SaveState) : Finset (Fin G.size) := Finset.univ.filter fun i => ¬G.Started s i

theorem Saves.pending_subset {own : Set (Fin G.size)} {s s' : SaveState} (h : G.Saves own s s') :
    G.pending s' ⊆ G.pending s := by
  intro i hi
  rw [pending, Finset.mem_filter] at hi ⊢
  exact ⟨hi.1, fun hstarted => hi.2 (h.started i hstarted)⟩

variable (G) in
def SavesPtrs (n : ℕ) (savePtr : Fin G.size → SaveState → Option SaveState) : Prop :=
  ∀ i s, G.Tidy s → (G.pending s).card < n →
    ∃ s', savePtr i s = some s' ∧ G.Saves ∅ s s' ∧ G.Started s' i

section Traversal
variable {n : ℕ} {savePtr : Fin G.size → SaveState → Option SaveState}

theorem SavesPtrs.foldlM (h : G.SavesPtrs n savePtr) (ptrs : List (Fin G.size)) {s : SaveState}
    (htidy : G.Tidy s) (hn : (G.pending s).card < n) :
    ∃ s', ptrs.foldlM (fun s i => savePtr i s) s = some s' ∧ G.Saves ∅ s s' ∧
      ∀ i ∈ ptrs, G.Started s' i := by
  induction ptrs generalizing s with
  | nil => exact ⟨s, rfl, htidy.refl, fun i hi => absurd hi List.not_mem_nil⟩
  | cons i ptrs ih =>
    obtain ⟨s₁, hone, hsaves, hi⟩ := h i s htidy hn
    have hn₁ := Nat.lt_of_le_of_lt (Finset.card_le_card hsaves.pending_subset) hn
    obtain ⟨s₂, hrest, hsaves', hall⟩ := ih hsaves.tidy hn₁
    refine ⟨s₂, ?_, hsaves.trans hsaves', List.forall_mem_cons.mpr ⟨hsaves'.started i hi, hall⟩⟩
    rw [List.foldlM_cons, hone, Option.bind_eq_bind, Option.bind_some, hrest]

structure SavesLevels (i : Fin G.size) (levels : List (LevelContents (Fin G.size))) (s s' : SaveState) : Prop where
  saves : G.Saves {i} s s'
  started : levels ≠ [] → G.Started s' i
  classes : classes s'.store (G.object i).id = G.storeLevels levels (classes s.store (G.object i).id)
  targets : ∀ l ∈ levels, ∀ j ∈ memberTargets l.members, G.Started s' j

theorem saveLevels_saves (h : G.SavesPtrs n savePtr) (i : Fin G.size)
    {levels : List (LevelContents (Fin G.size))} (hnodup : (levels.map LevelContents.classId).Nodup)
    {s : SaveState} (htidy : G.Tidy s)
    (hfirst : G.Started s i ∨ levels.head?.map LevelContents.classId = some (G.object i).classId)
    (hnew : ∀ l ∈ levels, ((G.object i).id, l.classId) ∉ s.visited)
    (hn : ((G.pending s).erase i).card < n) :
    ∃ s', G.saveLevels savePtr (G.object i).id levels s = some s' ∧ SavesLevels i levels s s' := by
  induction levels generalizing s with
  | nil => exact ⟨s, rfl, htidy.refl, fun hne => absurd rfl hne, rfl, fun l hl => absurd hl List.not_mem_nil⟩
  | cons l levels ih =>
    obtain ⟨hl, hlevels⟩ := List.nodup_cons.mp hnodup
    set s₁ : SaveState := { s with visited := ((G.object i).id, l.classId) :: s.visited } with hs₁
    have hvisit : G.Saves {i} s s₁ := htidy.visit (hfirst.imp_right fun hf => by simpa using hf)
    have hstarted₁ : G.Started s₁ i := hvisit.tidy.first i l.classId List.mem_cons_self
    -- from here on the object itself is no longer pending
    have hn' : ∀ s', G.Saves {i} s s' → G.Started s' i → (G.pending s').card < n := by
      intro s' hs' hi
      refine Nat.lt_of_le_of_lt (Finset.card_le_card fun j hj => ?_) hn
      refine Finset.mem_erase.mpr ⟨?_, hs'.pending_subset hj⟩
      rintro rfl
      exact (Finset.mem_filter.mp hj).2 hi
    obtain ⟨s₂, hbefore, hsaves₂, htargets₂⟩ :=
      h.foldlM (memberTargets l.before) hvisit.tidy (hn' s₁ hvisit hstarted₁)
    have hto₂ := hvisit.trans (hsaves₂.mono (Set.empty_subset {i}))
    have hstarted₂ := hsaves₂.started i hstarted₁
    have hnew₂ : ∀ l' ∈ levels, ((G.object i).id, l'.classId) ∉ s₂.visited := by
      intro l' hl' hmem
      obtain heq | hmem := List.mem_cons.mp (hsaves₂.visited i (Set.notMem_empty i) hstarted₁ _ hmem)
      · exact hl (List.mem_map.mpr ⟨l', hl', congrArg Prod.snd heq⟩)
      · exact hnew l' (List.mem_cons_of_mem l hl') hmem
    obtain ⟨s₃, hbase, hsaves₃⟩ := ih hlevels hsaves₂.tidy (.inl hstarted₂) hnew₂
      (Nat.lt_of_le_of_lt (Finset.card_le_card (Finset.erase_subset _ _)) (hn' s₂ hto₂ hstarted₂))
    have hto₃ := hto₂.trans hsaves₃.saves
    have hstarted₃ := hsaves₃.saves.started i hstarted₂
    obtain ⟨s₄, hafter, hsaves₄, htargets₄⟩ :=
      h.foldlM (memberTargets l.after) hsaves₃.saves.tidy (hn' s₃ hto₃ hstarted₃)
    have hto₄ := hto₃.trans (hsaves₄.mono (Set.empty_subset {i}))
    have hstarted₄ := hsaves₄.started i hstarted₃
    have hstore := hsaves₄.tidy.store hstarted₄ l.classId l.version (l.record lib G.ident)
    refine ⟨_, ?_, hto₄.trans hstore, fun _ => hstarted₄, ?_, ?_⟩
    · rw [saveLevels, if_neg (hnew l List.mem_cons_self)]
      simp only [← hs₁, hbefore, hbase, hafter, Option.bind_eq_bind, Option.bind_some]
      rfl
    · rw [classes_store_self hsaves₄.tidy.ordered, hsaves₄.stored i (Set.notMem_empty i) hstarted₃,
        hsaves₃.classes, hsaves₂.stored i (Set.notMem_empty i) hstarted₁]
      rfl
    · intro l' hl' j hj
      obtain rfl | hl' := List.mem_cons.mp hl'
      · rw [LevelContents.members, memberTargets, List.flatMap_append] at hj
        obtain hj | hj := List.mem_append.mp hj
        · exact hsaves₄.started j (hsaves₃.saves.started j (htargets₂ j hj))
        · exact htargets₄ j hj
      · exact hsaves₄.started j (hsaves₃.targets l' hl' j hj)

end Traversal

theorem mem_memberTargets {i j : Fin G.size} (hj : j ∈ memberTargets (G.object i).members) :
    ∃ l ∈ (G.object i).contents, j ∈ memberTargets l.members := by
  obtain ⟨x, hx, hj⟩ := List.mem_flatMap.mp hj
  obtain ⟨l, hl, hx⟩ := List.mem_flatMap.mp hx
  exact ⟨l, hl, List.mem_flatMap.mpr ⟨x, hx, hj⟩⟩

theorem saveRootImpl_saves (n : ℕ) : G.SavesPtrs n (G.saveRootImpl n) := by
  induction n with
  | zero => exact fun _ _ _ hn => absurd hn (Nat.not_lt_zero _)
  | succ n ih =>
    intro i s htidy hn
    rw [saveRootImpl, (G.declared i).factory]
    obtain ⟨l, hl, hclass⟩ := Option.map_eq_some_iff.mp (G.first_classId i)
    obtain ⟨ls, hls⟩ := List.head?_eq_some_iff.mp hl
    by_cases hstarted : G.Started s i
    · -- saving the object has begun already
      refine ⟨s, ?_, htidy.refl, hstarted⟩
      simp only [hls]
      rw [saveLevels, if_pos (by rw [hclass]; exact hstarted)]
    · have hpending : i ∈ G.pending s := Finset.mem_filter.mpr ⟨Finset.mem_univ i, hstarted⟩
      have hcard := Finset.card_erase_of_mem hpending
      have hpos := Finset.card_pos.mpr ⟨i, hpending⟩
      obtain ⟨s', hs', hlevels⟩ := saveLevels_saves ih i (G.nodup_classIds i) htidy
        (.inr (G.first_classId i)) (fun l _ hl => hstarted (htidy.first i _ hl)) (by omega)
      have hdone : G.Done s' i := by
        constructor
        · rw [hlevels.classes, htidy.empty i hstarted]
        · intro j hj
          obtain ⟨l, hl, hj⟩ := mem_memberTargets hj
          exact hlevels.targets l hl j hj
      exact ⟨s', hs', hlevels.saves.whole hstarted hdone, hlevels.started (by simp [hls])⟩

theorem tidy_nil : G.Tidy {} := ⟨ordered_nil, nofun, fun _ _ => rfl⟩

/-- All objects that can be reached are in the store after `SaveRoot`. -/
theorem saveRoot_holds {fuel : ℕ} (hfuel : G.size < fuel) (root : Fin G.size) :
    ∃ saved, G.saveRoot fuel root = some saved ∧ ∀ i, G.Reachable root i → G.Holds saved i := by
  have hcard : (G.pending {}).card < fuel := by
    have hle := Finset.card_le_univ (G.pending {})
    rw [Fintype.card_fin] at hle
    omega
  obtain ⟨s, hs, hsaves, hroot⟩ := saveRootImpl_saves fuel root {} tidy_nil hcard
  have hdone : ∀ i, G.Started s i → G.Done s i := fun i hi =>
    hsaves.done i (Set.notMem_empty i) List.not_mem_nil hi
  have hreached : ∀ i, G.Reachable root i → G.Started s i := by
    intro i hi
    induction hi with
    | refl => exact hroot
    | tail _ hleads ih => exact (hdone _ ih).targets _ hleads.1
  refine ⟨s.store, by rw [saveRoot, hs, Option.map_some], fun i hi => ?_⟩
  exact G.holds_of_classes (hdone i (hreached i hi)).classes

end AetherClient.Domain.Graph
