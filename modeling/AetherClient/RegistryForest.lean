import AetherClient.Registry
import Mathlib.Algebra.Order.BigOperators.Group.List

set_option autoImplicit false

namespace AetherClient
open FileSystem

namespace Registry
variable {Factory : Type} {r : Registry Factory} {a b c x y : ClassId} {n m : ℕ}

structure IsForest (r : Registry Factory) : Prop where
  existing : ∀ base, ∀ c ∈ r.derived base, r.isExisting c
  base_unique : ∀ b b' c, c ∈ r.derived b → c ∈ r.derived b' → b = b'

/-- The inheritance path of this length from a class down to another one. -/
inductive Path (r : Registry Factory) (a : ClassId) : ℕ → ClassId → Prop where
  | refl (h : r.isExisting a) : Path r a 0 a
  | tail {n : ℕ} {b c : ClassId} (h : Path r a n b) (hc : c ∈ r.derived b) : Path r a (n + 1) c

def Descends (r : Registry Factory) (a b : ClassId) : Prop := ∃ n, r.Path a n b

theorem Path.head (ha : r.isExisting a) (hc : c ∈ r.derived a) (h : r.Path c n b) :
    r.Path a (n + 1) b := by
  induction h with
  | refl => exact .tail (.refl ha) hc
  | tail _ hb ih => exact .tail ih hb

theorem Path.derives (h : r.Path a (n + 1) b) : r.Derives a b := by
  induction n generalizing b with
  | zero =>
    obtain _ | ⟨h, hc⟩ := h
    cases h
    exact .single hc
  | succ n ih =>
    obtain _ | ⟨h, hc⟩ := h
    exact .tail (ih h) hc

theorem Derives.exists_path (ha : r.isExisting a) (h : r.Derives a b) :
    ∃ n, r.Path a (n + 1) b := by
  induction h with
  | single hc => exact ⟨0, .tail (.refl ha) hc⟩
  | tail _ hc ih =>
    obtain ⟨n, hpath⟩ := ih
    exact ⟨n + 1, .tail hpath hc⟩

theorem Path.existing (hforest : r.IsForest) (h : r.Path a n b) : r.isExisting a ∧ r.isExisting b := by
  induction h with
  | refl h => exact ⟨h, h⟩
  | tail _ hc ih => exact ⟨ih.1, hforest.existing _ _ hc⟩

theorem Path.length_unique (hforest : r.IsForest) (h : r.Path a n b) (h' : r.Path a m b) : n = m := by
  induction h generalizing m with
  | refl =>
    cases m with
    | zero => rfl
    | succ m => exact absurd h'.derives.generation_lt (Nat.lt_irrefl _)
  | @tail n p b h hb ih =>
    cases h' with
    | refl => exact absurd (Path.tail h hb).derives.generation_lt (Nat.lt_irrefl _)
    | tail h' hb' =>
      obtain rfl := hforest.base_unique _ _ _ hb hb'
      rw [ih h']

theorem descends_iff (hx : r.isExisting x) :
    r.Descends x y ↔ x = y ∨ r.Derives x y := by
  constructor
  · rintro ⟨n, h⟩
    cases n with
    | zero =>
      cases h
      exact .inl rfl
    | succ n => exact .inr h.derives
  · rintro (rfl | h)
    · exact ⟨0, .refl hx⟩
    · obtain ⟨n, hn⟩ := h.exists_path hx
      exact ⟨n + 1, hn⟩

theorem Descends.trans (h : r.Descends a b) (h' : r.Descends b c) :
    r.Descends a c := by
  obtain ⟨n, h⟩ := h
  obtain ⟨m, h'⟩ := h'
  induction h' with
  | refl => exact ⟨n, h⟩
  | tail _ hc ih =>
    obtain ⟨k, hk⟩ := ih
    exact ⟨k + 1, .tail hk hc⟩

theorem searchDerived_sound {distance : ClassId → ℤ} {cs : List ClassId} {d : ℤ}
    (h : searchDerived distance b cs = d) (hd : d ≠ -1) :
    ∃ c ∈ cs, b = c ∧ d = 1 ∨ 0 ≤ distance c ∧ d = distance c + 1 := by
  induction cs with
  | nil => exact absurd h.symm hd
  | cons c cs ih =>
    rw [searchDerived] at h
    split at h
    · next hc => exact ⟨c, List.mem_cons_self, .inl ⟨hc, h.symm⟩⟩
    · split at h
      · next hle => exact ⟨c, List.mem_cons_self, .inr ⟨hle, h.symm⟩⟩
      · obtain ⟨c', hc', hfound⟩ := ih h
        exact ⟨c', List.mem_cons_of_mem c hc', hfound⟩

theorem generationDistanceInternal_sound (hforest : r.IsForest) (ha : r.isExisting a) {fuel : ℕ}
    (h : r.generationDistanceInternal fuel a b ≠ -1) :
    ∃ n : ℕ, r.generationDistanceInternal fuel a b = n + 1 ∧ r.Path a (n + 1) b := by
  induction fuel generalizing a with
  | zero => exact absurd rfl h
  | succ fuel ih =>
    rw [generationDistanceInternal] at h ⊢
    obtain ⟨c, hc, ⟨rfl, hd⟩ | ⟨hle, hd⟩⟩ := searchDerived_sound rfl h
    · exact ⟨0, hd, .tail (.refl ha) hc⟩
    · obtain ⟨n, hn, hpath⟩ := ih (hforest.existing a c hc) (by omega)
      refine ⟨n + 1, ?_, hpath.head ha hc⟩
      rw [hd, hn]
      push_cast
      rfl

theorem generationDistance_of_path (hforest : r.IsForest) (h : r.Path a n b) :
    r.generationDistance a b = n := by
  obtain ⟨ha, hb⟩ := h.existing hforest
  rw [generationDistance, if_neg (by simp [ha, hb])]
  cases n with
  | zero =>
    cases h
    rw [if_pos rfl]
    rfl
  | succ n =>
    have hlt := h.derives.generation_lt
    have hle := r.generation_le b
    have hne : a ≠ b := by
      rintro rfl
      exact Nat.lt_irrefl _ hlt
    have hpos := generationDistanceInternal_pos h.derives
      (show r.generation b ≤ r.generation a + r.depth by omega)
    obtain ⟨m, hm, hpath⟩ := generationDistanceInternal_sound hforest ha
      (show r.generationDistanceInternal r.depth a b ≠ -1 by omega)
    rw [if_neg hne, hm, h.length_unique hforest hpath]
    rfl

theorem generationDistance_cases (hforest : r.IsForest) (a b : ClassId) :
    (∃ n : ℕ, r.generationDistance a b = n ∧ r.Path a n b) ∨ r.generationDistance a b = -1 := by
  rw [generationDistance]
  split
  · exact .inr rfl
  · next hexisting =>
    have ha : r.isExisting a := by simp_all
    split
    · next heq =>
      subst heq
      exact .inl ⟨0, rfl, .refl ha⟩
    · by_cases hnone : r.generationDistanceInternal r.depth a b = -1
      · exact .inr hnone
      · obtain ⟨n, hn, hpath⟩ := generationDistanceInternal_sound hforest ha hnone
        exact .inl ⟨n + 1, by rw [hn]; push_cast; rfl, hpath⟩

theorem generationDistance_nonneg_iff (hforest : r.IsForest) :
    0 ≤ r.generationDistance a b ↔ r.Descends a b := by
  constructor
  · intro h
    obtain ⟨n, -, hpath⟩ | hnone := generationDistance_cases hforest a b
    · exact ⟨n, hpath⟩
    · omega
  · rintro ⟨n, hpath⟩
    rw [generationDistance_of_path hforest hpath]
    exact Int.natCast_nonneg n

theorem before_of_derives (hforest : r.IsForest) (hx : r.isExisting x) (hy : r.isExisting y)
    (h : r.Derives x y) : r.before x y = true ∧ r.before y x = false := by
  have hpos := generationDistance_pos h hx hy
  have hneg : ¬0 ≤ r.generationDistance y x := by
    rw [generationDistance_nonneg_iff hforest, descends_iff hy]
    rintro (rfl | hback)
    · exact Nat.lt_irrefl _ h.generation_lt
    · exact Nat.lt_irrefl _ (Nat.lt_trans h.generation_lt hback.generation_lt)
  constructor
  · rw [before, if_neg (by omega), if_pos (by omega)]
  · rw [before, if_pos hpos]

theorem exists_top {classes : List ClassId} (hne : classes ≠ [])
    (hchain : ∀ x ∈ classes, ∀ y ∈ classes, r.Descends x y ∨ r.Descends y x) :
    ∃ top ∈ classes, ∀ x ∈ classes, r.Descends x top := by
  induction classes with
  | nil => exact absurd rfl hne
  | cons x classes ih =>
    have hself : r.Descends x x := or_self_iff.mp (hchain x List.mem_cons_self x List.mem_cons_self)
    by_cases hnil : classes = []
    · subst hnil
      exact ⟨x, List.mem_cons_self, fun y hy => List.mem_singleton.mp hy ▸ hself⟩
    · obtain ⟨top, htop, hall⟩ := ih hnil fun y hy z hz =>
        hchain y (List.mem_cons_of_mem x hy) z (List.mem_cons_of_mem x hz)
      obtain hbelow | habove := hchain x List.mem_cons_self top (List.mem_cons_of_mem x htop)
      · exact ⟨top, List.mem_cons_of_mem x htop, List.forall_mem_cons.mpr ⟨hbelow, hall⟩⟩
      · refine ⟨x, List.mem_cons_self, List.forall_mem_cons.mpr ⟨hself, ?_⟩⟩
        exact fun y hy => (hall y hy).trans habove

theorem exists_last (hforest : r.IsForest) (ha : r.isExisting a) :
    ∃ m, r.isExisting m ∧ r.isLast m ∧ r.Descends a m := by
  induction hleft : r.depth - r.generation a using Nat.strong_induction_on generalizing a with
  | _ left ih =>
    cases hderived : r.derived a with
    | nil => exact ⟨a, ha, by rw [isLast, hderived]; rfl, 0, .refl ha⟩
    | cons c cs =>
      have hc : c ∈ r.derived a := hderived ▸ List.mem_cons_self
      have hlt := r.derived_generation a c hc
      have hle := r.generation_le c
      obtain ⟨m, hm, hlast, hbelow⟩ := ih _ (by omega) (hforest.existing a c hc) rfl
      have hstep : r.Descends a c := ⟨1, .tail (.refl ha) hc⟩
      exact ⟨m, hm, hlast, hstep.trans hbelow⟩

theorem not_derives_of_isLast (h : r.isLast a) : ¬r.Derives a b := by
  intro hderives
  obtain ⟨c, hc, -⟩ := Relation.TransGen.head'_iff.mp hderives
  rw [List.isEmpty_iff.mp h] at hc
  cases hc

theorem exists_mostRelated (hforest : r.IsForest) {classes : List ClassId}
    (hne : classes.filter r.isExisting ≠ [])
    (hchain : ∀ x ∈ classes.filter r.isExisting, ∀ y ∈ classes.filter r.isExisting,
      r.Descends x y ∨ r.Descends y x) :
    ∃ m f, r.getMostRelatedFactory classes = some (m, f) ∧ r.findFactory m = some f ∧
      (∀ c, r.Descends m c → c = m) ∧ ∀ x ∈ classes, r.isExisting x → r.Descends x m := by
  obtain ⟨top, htop, hall⟩ := exists_top hne hchain
  have hexisting : ∀ x ∈ classes.filter r.isExisting, r.isExisting x :=
    fun x hx => (List.mem_filter.mp hx).2
  have hderives : ∀ x ∈ classes.filter r.isExisting, x ≠ top → r.Derives x top := fun x hx hxt =>
    ((descends_iff (hexisting x hx)).mp (hall x hx)).resolve_left hxt
  have hback : (r.sortClasses (classes.filter r.isExisting)).getLast? = some top := by
    apply getLast_insertionSort
    · intro x hx hxt
      exact (before_of_derives hforest (hexisting x hx) (hexisting top htop) (hderives x hx hxt)).1
    · intro x hx hxt
      simp [(before_of_derives hforest (hexisting x hx) (hexisting top htop) (hderives x hx hxt)).2]
    · exact before_self (hexisting top htop)
    · exact htop
  obtain ⟨m, hm, hlast, hbelow⟩ := exists_last hforest (hexisting top htop)
  obtain ⟨f, hf⟩ := Option.isSome_iff_exists.mp hm
  have hfound : (r.factories.find? fun e =>
      r.isLast e.1 ∧ 0 ≤ r.generationDistance top e.1).isSome := by
    refine List.find?_isSome.mpr ⟨(m, f), StdMap.mem_of_lookup hf, ?_⟩
    exact decide_eq_true ⟨hlast, (generationDistance_nonneg_iff hforest).mpr hbelow⟩
  obtain ⟨e, he⟩ := Option.isSome_iff_exists.mp hfound
  have hchosen : r.isLast e.1 ∧ 0 ≤ r.generationDistance top e.1 := by
    simpa using List.find?_some he
  obtain ⟨hleaf, hdistance⟩ := hchosen
  have hdescends := (generationDistance_nonneg_iff hforest).mp hdistance
  have hfactory : r.findFactory e.1 = some e.2 :=
    Tables.lookup_of_mem r.factories_nodup (List.mem_of_find?_eq_some he)
  refine ⟨e.1, e.2, ?_, hfactory, ?_, ?_⟩
  · rw [getMostRelatedFactory, hback]
    exact he
  · intro c hc
    have hexists : r.isExisting e.1 := Option.isSome_iff_exists.mpr ⟨e.2, hfactory⟩
    exact (((descends_iff hexists).mp hc).resolve_right (not_derives_of_isLast hleaf)).symm
  · intro x hx hexists
    exact (hall x (List.mem_filter.mpr ⟨hx, hexists⟩)).trans hdescends

end Registry

structure ClassRegistration (Factory : Type) where
  classId : ClassId
  baseId : ClassId
  factory : Factory

/-- A class derived from `Obj` is not entered below it. -/
def registerClass {Factory : Type} (obj : ClassId) (derived : ClassId → List ClassId)
    (x : ClassRegistration Factory) : ClassId → List ClassId :=
  if x.baseId ≠ obj then Function.update derived x.baseId (derived x.baseId ++ [x.classId])
  else derived

/-- Every class registers once, and no class is its own base, directly or through others. `Obj` does
not register, and the roots are the classes whose base does not. -/
structure ClassForest (Factory : Type) where
  obj : ClassId
  registrations : List (ClassRegistration Factory)
  classId_nodup : (registrations.map ClassRegistration.classId).Nodup
  obj_notMem : obj ∉ registrations.map ClassRegistration.classId
  generation : ClassId → ℕ
  generation_lt : ∀ x ∈ registrations, generation x.baseId < generation x.classId
  factories : List (ClassId × Factory)
  factories_perm : factories.Perm (registrations.map fun x => (x.classId, x.factory))

namespace ClassForest
variable {Factory : Type} {forest : ClassForest Factory} {a b c : ClassId} {n : ℕ}

def derived (forest : ClassForest Factory) : ClassId → List ClassId :=
  forest.registrations.foldl (registerClass forest.obj) fun _ => []

def Registered (forest : ClassForest Factory) (c : ClassId) : Prop :=
  c ∈ forest.registrations.map ClassRegistration.classId

instance : DecidablePred forest.Registered := fun c =>
  inferInstanceAs (Decidable (c ∈ forest.registrations.map ClassRegistration.classId))

inductive Path (forest : ClassForest Factory) (a : ClassId) : ℕ → ClassId → Prop where
  | refl (h : forest.Registered a) : Path forest a 0 a
  | tail {n : ℕ} {x : ClassRegistration Factory} (h : Path forest a n x.baseId)
      (hx : x ∈ forest.registrations) : Path forest a (n + 1) x.classId

def Descends (forest : ClassForest Factory) (a b : ClassId) : Prop := ∃ n, forest.Path a n b

theorem Path.registered (h : forest.Path a n b) : forest.Registered b := by
  cases h with
  | refl h => exact h
  | tail _ hx => exact List.mem_map_of_mem hx

theorem mem_foldl_registerClass {obj base : ClassId} {xs : List (ClassRegistration Factory)}
    {derived : ClassId → List ClassId} :
    c ∈ xs.foldl (registerClass obj) derived base ↔
      c ∈ derived base ∨ base ≠ obj ∧ ∃ x ∈ xs, x.baseId = base ∧ x.classId = c := by
  induction xs generalizing derived with
  | nil => simp
  | cons x xs ih =>
    have hstep : c ∈ registerClass obj derived x base ↔
        c ∈ derived base ∨ base ≠ obj ∧ x.baseId = base ∧ x.classId = c := by
      by_cases hbase : x.baseId = base
      · subst hbase
        by_cases hobj : x.baseId = obj <;> simp [registerClass, hobj, eq_comm]
      · have hsame : registerClass obj derived x base = derived base := by
          rw [registerClass]
          split
          · exact Function.update_of_ne (Ne.symm hbase) _ _
          · rfl
        simp [hsame, hbase]
    rw [List.foldl_cons, ih, hstep, List.exists_mem_cons_iff, or_assoc, ← and_or_left]

theorem mem_derived : c ∈ forest.derived b ↔
    b ≠ forest.obj ∧ ∃ x ∈ forest.registrations, x.baseId = b ∧ x.classId = c := by
  rw [derived, mem_foldl_registerClass]
  simp

def registry (forest : ClassForest Factory) : Registry Factory where
  factories := forest.factories
  factories_nodup := by
    have hperm := forest.factories_perm.map Prod.fst
    rw [List.map_map] at hperm
    exact hperm.nodup_iff.mpr forest.classId_nodup
  derived := forest.derived
  generation c := if forest.Registered c then forest.generation c + 1 else 0
  derived_generation := by
    intro base c hc
    obtain ⟨-, x, hx, rfl, rfl⟩ := mem_derived.mp hc
    have hlt := forest.generation_lt x hx
    rw [if_pos (show forest.Registered x.classId from List.mem_map_of_mem hx)]
    split <;> omega
  depth := (forest.registrations.map fun x => forest.generation x.classId + 1).sum
  generation_le := by
    intro c
    split
    · next hc =>
      obtain ⟨x, hx, rfl⟩ := List.mem_map.mp hc
      exact List.le_sum_of_mem (List.mem_map.mpr ⟨x, hx, rfl⟩)
    · exact Nat.zero_le _

theorem mem_factories {e : ClassId × Factory} :
    e ∈ forest.factories ↔ ∃ x ∈ forest.registrations, (x.classId, x.factory) = e := by
  rw [forest.factories_perm.mem_iff, List.mem_map]

theorem isExisting_iff : forest.registry.isExisting c ↔ forest.Registered c := by
  rw [Registry.isExisting, Option.isSome_iff_exists, Registered, List.mem_map]
  constructor
  · rintro ⟨f, hf⟩
    obtain ⟨x, hx, he⟩ := mem_factories.mp (StdMap.mem_of_lookup hf)
    exact ⟨x, hx, congrArg Prod.fst he⟩
  · rintro ⟨x, hx, rfl⟩
    exact ⟨x.factory, Tables.lookup_of_mem forest.registry.factories_nodup
      (mem_factories.mpr ⟨x, hx, rfl⟩)⟩

theorem isForest (forest : ClassForest Factory) : forest.registry.IsForest := by
  constructor
  · intro base c hc
    obtain ⟨-, x, hx, -, rfl⟩ := mem_derived.mp hc
    exact isExisting_iff.mpr (List.mem_map_of_mem hx)
  · intro b b' c hc hc'
    obtain ⟨-, x, hx, rfl, hclass⟩ := mem_derived.mp hc
    obtain ⟨-, x', hx', rfl, hclass'⟩ := mem_derived.mp hc'
    rw [List.inj_on_of_nodup_map forest.classId_nodup hx hx' (hclass.trans hclass'.symm)]

theorem path_iff : forest.registry.Path a n b ↔ forest.Path a n b := by
  constructor
  · intro h
    induction h with
    | refl h => exact .refl (isExisting_iff.mp h)
    | tail _ hc ih =>
      obtain ⟨-, x, hx, rfl, rfl⟩ := mem_derived.mp hc
      exact .tail ih hx
  · intro h
    induction h with
    | refl h => exact .refl (isExisting_iff.mpr h)
    | @tail n x h hx ih =>
      have hobj : x.baseId ≠ forest.obj := fun he => forest.obj_notMem (he ▸ h.registered)
      exact .tail ih (mem_derived.mpr ⟨hobj, x, hx, rfl, rfl⟩)

theorem descends_iff : forest.registry.Descends a b ↔ forest.Descends a b :=
  exists_congr fun _ => path_iff

theorem generationDistance_eq_iff : forest.registry.generationDistance a b = n ↔ forest.Path a n b := by
  constructor
  · intro h
    obtain ⟨m, hm, hpath⟩ | hnone := Registry.generationDistance_cases forest.isForest a b
    · obtain rfl : m = n := by omega
      exact path_iff.mp hpath
    · omega
  · intro h
    exact Registry.generationDistance_of_path forest.isForest (path_iff.mpr h)

theorem generationDistance_eq_neg_one_iff :
    forest.registry.generationDistance a b = -1 ↔ ¬forest.Descends a b := by
  constructor
  · rintro h ⟨n, hpath⟩
    have hn := generationDistance_eq_iff.mpr hpath
    omega
  · intro h
    obtain ⟨n, -, hpath⟩ | hnone := Registry.generationDistance_cases forest.isForest a b
    · exact absurd ⟨n, path_iff.mp hpath⟩ h
    · exact hnone

/-- The distance is the length of the path from the one class down to the other, and classes of one
chain lead to a class without derived classes that descends from all of them. -/
theorem getMostRelatedFactory_fits (forest : ClassForest Factory) :
    (∀ a b, (∀ n : ℕ, forest.registry.generationDistance a b = n ↔ forest.Path a n b) ∧
      (forest.registry.generationDistance a b = -1 ↔ ¬forest.Descends a b)) ∧
    ∀ classes : List ClassId, (∃ c ∈ classes, forest.Registered c) →
      (∀ c ∈ classes, ∀ d ∈ classes, forest.Registered c → forest.Registered d →
        forest.Descends c d ∨ forest.Descends d c) →
      ∃ x ∈ forest.registrations,
        forest.registry.getMostRelatedFactory classes = some (x.classId, x.factory) ∧
          (∀ y ∈ forest.registrations, y.baseId ≠ x.classId) ∧
          ∀ c ∈ classes, forest.Registered c → forest.Descends c x.classId := by
  refine ⟨fun a b => ⟨fun n => generationDistance_eq_iff, generationDistance_eq_neg_one_iff⟩, ?_⟩
  intro classes ⟨c, hc, hregistered⟩ hchain
  have hne : classes.filter forest.registry.isExisting ≠ [] :=
    List.ne_nil_of_mem (List.mem_filter.mpr ⟨hc, isExisting_iff.mpr hregistered⟩)
  obtain ⟨m, f, hfound, hfactory, hleaf, hbelow⟩ := Registry.exists_mostRelated forest.isForest hne (by
    intro x hx y hy
    obtain ⟨hx, hexists⟩ := List.mem_filter.mp hx
    obtain ⟨hy, hexists'⟩ := List.mem_filter.mp hy
    rw [descends_iff, descends_iff]
    exact hchain x hx y hy (isExisting_iff.mp hexists) (isExisting_iff.mp hexists'))
  obtain ⟨x, hx, he⟩ := mem_factories.mp (StdMap.mem_of_lookup hfactory)
  obtain ⟨rfl, rfl⟩ := Prod.mk.inj he
  refine ⟨x, hx, hfound, ?_, fun c hc hreg => descends_iff.mp (hbelow c hc (isExisting_iff.mpr hreg))⟩
  intro y hy hbase
  have hself : forest.Path x.classId 0 y.baseId := by
    rw [hbase]
    exact .refl (List.mem_map_of_mem hx)
  have hpath : forest.Path x.classId 1 y.classId := .tail hself hy
  have heq := hleaf y.classId (descends_iff.mpr ⟨1, hpath⟩)
  have hlt := forest.generation_lt y hy
  rw [hbase, heq] at hlt
  exact Nat.lt_irrefl _ hlt

def adapters : ClassForest String where
  obj := 0
  registrations := [⟨3, 2, "wifi"⟩, ⟨1, 0, "cloud"⟩, ⟨2, 0, "adapter"⟩, ⟨4, 2, "ethernet"⟩]
  classId_nodup := by decide
  obj_notMem := by decide
  generation c := c.toNat
  generation_lt := by decide
  factories := [(4, "ethernet"), (2, "adapter"), (3, "wifi"), (1, "cloud")]
  factories_perm := by decide

/-- From the base alone the adapter is found that comes first in the unordered map. -/
example : adapters.registry.getMostRelatedFactory [2] = some (4, "ethernet") := by decide

theorem getMostRelatedFactory_fits_adapters :
    adapters.registry.generationDistance 2 3 = 1 ∧ ∃ x ∈ adapters.registrations,
      adapters.registry.getMostRelatedFactory [9, 3, 2] = some (x.classId, x.factory) ∧
        (∀ y ∈ adapters.registrations, y.baseId ≠ x.classId) ∧
        ∀ c ∈ [9, 3, 2], adapters.Registered c → adapters.Descends c x.classId := by
  have hpath : adapters.Path 2 1 3 :=
    .tail (x := ⟨3, 2, "wifi"⟩) (.refl (by decide)) (by simp [adapters])
  refine ⟨((getMostRelatedFactory_fits adapters).1 2 3).1 1 |>.mpr hpath,
    (getMostRelatedFactory_fits adapters).2 _ ⟨2, by decide, by decide⟩ ?_⟩
  have hunknown : ¬adapters.Registered 9 := by decide
  have hwifi : adapters.Descends 3 3 := ⟨0, .refl (by decide)⟩
  have hadapter : adapters.Descends 2 2 := ⟨0, .refl (by decide)⟩
  have hbelow : adapters.Descends 2 3 := ⟨1, hpath⟩
  simp only [List.forall_mem_cons, List.not_mem_nil, hunknown, hwifi, hadapter, hbelow,
    false_imp_iff, implies_true, true_or, or_true, and_true]

end ClassForest
end AetherClient
