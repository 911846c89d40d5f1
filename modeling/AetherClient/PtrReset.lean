import AetherClient.PtrComparison

set_option autoImplicit false

namespace AetherClient
open RefGraph

namespace Heap
section Modify
variable {h : Heap} {a b : Address} {f : HeapObject → HeapObject} {count : UInt16}

theorem find_modifyObject (hf : ∀ o, (f o).address = o.address) :
    (h.modifyObject a f).find b = (h.find b).map fun o => if o.address = a then f o else o := by
  have hcomp : (fun o : HeapObject => decide (o.address = b)) ∘
      (fun o => if o.address = a then f o else o) = fun o => decide (o.address = b) := by
    funext o
    dsimp only [Function.comp]
    split_ifs
    · rw [hf]
    · rfl
  unfold find modifyObject
  rw [List.find?_map, hcomp]

theorem find_modifyObject_ne (hf : ∀ o, (f o).address = o.address) (hne : b ≠ a) :
    (h.modifyObject a f).find b = h.find b := by
  rw [find_modifyObject hf]
  cases hb : h.find b with
  | none => rfl
  | some o =>
    obtain ⟨-, rfl⟩ := find_mem hb
    rw [Option.map_some, if_neg hne]

theorem find_modifyObject_self {o : HeapObject} (hf : ∀ o, (f o).address = o.address)
    (ho : h.find a = some o) : (h.modifyObject a f).find a = some (f o) := by
  rw [find_modifyObject hf, ho, Option.map_some, if_pos (find_mem ho).2]

theorem refCounter_modifyObject (hf : ∀ o, (f o).address = o.address)
    (hc : ∀ o, (f o).refCounter = o.refCounter) :
    (h.modifyObject a f).refCounter b = h.refCounter b := by
  rw [refCounter, find_modifyObject hf, refCounter]
  cases h.find b with
  | none => rfl
  | some o =>
    simp only [Option.map_some, Option.getD_some]
    split_ifs
    · exact hc o
    · rfl

theorem find_decrement_ne (hne : b ≠ a) : (h.decrement a count).find b = h.find b :=
  find_modifyObject_ne (fun _ => rfl) hne

theorem find_decrement_self {o : HeapObject} (ho : h.find a = some o) :
    (h.decrement a count).find a = some { o with refCounter := o.refCounter - count } :=
  find_modifyObject_self (fun _ => rfl) ho

theorem refCounter_decrement_ne (hne : b ≠ a) :
    (h.decrement a count).refCounter b = h.refCounter b := by
  rw [refCounter, find_decrement_ne hne, refCounter]

theorem refCounter_decrement_self {o : HeapObject} (ho : h.find a = some o) :
    (h.decrement a count).refCounter a = h.refCounter a - count := by
  rw [refCounter, find_decrement_self ho, refCounter, ho]
  rfl

theorem refCounter_decrement_all {o : HeapObject} (ho : h.find a = some o) :
    (h.decrement a (h.refCounter a)).refCounter a = 0 := by
  rw [refCounter_decrement_self ho, UInt16.sub_self]

def OnlyLoses (g : HeapObject → HeapObject) : Prop :=
  ∀ o, (g o).address = o.address ∧ (g o).hasVisit = o.hasVisit ∧
    ∀ s ∈ (g o).members, ∃ t ∈ o.members, t.reported = s.reported

section MapObjects
variable {g : HeapObject → HeapObject} {free : List PtrSlot} {deleted : List Address}

theorem WellFormed.mapObjects (hw : h.WellFormed) (hg : OnlyLoses g) :
    (⟨h.objects.map g, free, deleted⟩ : Heap).WellFormed := by
  refine ⟨?_, ?_⟩
  · have haddr : (h.objects.map g).map HeapObject.address = h.objects.map HeapObject.address := by
      rw [List.map_map]
      exact List.map_congr_left fun o _ => (hg o).1
    rw [haddr]
    exact hw.addresses
  · intro o ho s hs
    obtain ⟨c, hc, rfl⟩ := List.mem_map.1 ho
    obtain ⟨t, ht, hr⟩ := (hg c).2.2 s hs
    rw [(hg c).2.1, ← hr]
    exact hw.reported c hc t ht

theorem DistinctEntries.mapObjects {L : Finset Address} (hd : h.DistinctEntries L)
    (hg : ∀ o, (g o).address = o.address ∧ (g o).entries.Sublist o.entries) :
    (⟨h.objects.map g, free, deleted⟩ : Heap).DistinctEntries L := by
  refine List.Nodup.sublist ?_ hd
  have hfilter : (h.objects.map g).filter (fun o => o.address ∈ L) =
      (h.objects.filter fun o => o.address ∈ L).map g := by
    rw [List.filter_map]
    exact congrArg _ (List.filter_congr fun o _ => by rw [Function.comp, (hg o).1])
  rw [hfilter, List.flatMap_map]
  induction h.objects.filter fun o => o.address ∈ L with
  | nil => exact List.Sublist.refl _
  | cons o rest ih => exact (hg o).2.append ih

end MapObjects

theorem onlyLoses_decrement (a : Address) (count : UInt16) : OnlyLoses fun o =>
    if o.address = a then { o with refCounter := o.refCounter - count } else o := by
  intro o
  dsimp only
  split_ifs <;> exact ⟨rfl, rfl, fun s hs => ⟨s, hs, rfl⟩⟩

theorem WellFormed.decrement (hw : h.WellFormed) : (h.decrement a count).WellFormed :=
  hw.mapObjects (onlyLoses_decrement a count)

theorem DistinctEntries.decrement {L : Finset Address} (hd : h.DistinctEntries L) :
    (h.decrement a count).DistinctEntries L := by
  refine hd.mapObjects fun o => ?_
  split_ifs <;> exact ⟨rfl, List.Sublist.refl _⟩

theorem WellFormed.clear (hw : h.WellFormed) (q : Address) : (h.clear q).WellFormed := by
  refine hw.mapObjects fun o => ⟨rfl, rfl, ?_⟩
  intro s hs
  obtain ⟨t, ht, rfl⟩ := List.mem_map.1 hs
  refine ⟨t, ht, ?_⟩
  unfold PtrSlot.clearAt
  split_ifs <;> rfl

end Modify

section GiveUp
variable {h : Heap} {succ : Address → List Address} {L : Finset Address} {y : Address}

/-- `Reset` gives up all references of `y` if `go`, and one reference otherwise: `y` has one
reference, or the rule of trial deletion holds on what the walk has met. With distinct entries this
is all that is below `y`, provided that a way back is shown. -/
structure Decides (h : Heap) (succ : Address → List Address) (L : Finset Address)
    (ptrTypeIndex : ℕ) (y : Address) (go : Prop) : Prop where
  yes : go → h.giveUp ptrTypeIndex y = h.decrement y (h.refCounter y)
  no : ¬ go → h.giveUp ptrTypeIndex y = h.decrement y 1 ∧ (h.refCounter y).toNat ≠ 1
  sound : go → (h.refCounter y).toNat = 1 ∨ ∃ seen : Address → List Address,
    Collectable seen L (fun a => (h.refCounter a).toNat) y ∧
      ∀ c ∈ L, ∀ b, (seen c).count b ≤ (succ c).count b
  exact : h.DistinctEntries L → (go ↔ (h.refCounter y).toNat = 1 ∨
    (ShowsWay h succ L ptrTypeIndex y ∧
      Collectable succ (sub succ L y) (fun a => (h.refCounter a).toNat) y))

theorem giveUp_of_one {ptrTypeIndex : ℕ} (hone : (h.refCounter y).toNat = 1) :
    h.giveUp ptrTypeIndex y = h.decrement y (h.refCounter y) := by
  have hone : h.refCounter y = 1 := UInt16.toNat_inj.1 hone
  rw [giveUp, if_pos hone, hone]

theorem Records.collectable_iff {ptrTypeIndex : ℕ} {edges : List (Address × Address)}
    (hr : Records h succ L ptrTypeIndex y edges) (hd : h.DistinctEntries L) (hy : y ∈ L)
    (hway : ShowsWay h succ L ptrTypeIndex y) :
    Collectable (successors edges) L (fun a => (h.refCounter a).toNat) y ↔
      Collectable succ (sub succ L y) (fun a => (h.refCounter a).toNat) y :=
  collectable_congr sub_subset (self_mem_sub hy)
    (fun _ ha _ hb hL => mem_sub.2 ((mem_sub.1 ha).step hb hL)) (hr.all hd hway) hr.below

theorem Records.alone {ptrTypeIndex : ℕ} {edges : List (Address × Address)}
    (hr : Records h succ L ptrTypeIndex y edges) (hway : ¬ ShowsWay h succ L ptrTypeIndex y)
    (hc : Collectable (successors edges) L (fun a => (h.refCounter a).toNat) y) :
    (h.refCounter y).toNat = 1 := by
  have hzero : inDegree (successors edges) L y = 0 := by
    by_contra hne
    obtain ⟨x, -, hx⟩ := inDegree_pos_iff.1 (Nat.pos_of_ne_zero hne)
    exact hr.none hway x (mem_successors.1 hx)
  have := hc.alone
  omega

theorem giveUp_spec (hw : h.WellFormed) (hR : Region h succ L) (hy : y ∈ L)
    (ptrTypeIndex : ℕ) : ∃ go, Decides h succ L ptrTypeIndex y go := by
  obtain ⟨o, hf, -⟩ := hR.objects y hy
  have hnot : (h.refCounter y).toNat ≠ 1 → h.refCounter y ≠ 1 := fun hne he => hne (he ▸ rfl)
  by_cases hv : o.hasVisit = true
  · obtain ⟨edges, hcnt, hrec⟩ := countReferences_spec hw hR hf hy ptrTypeIndex
    have hsafe := hcnt.safeToDelete_iff
    refine ⟨(h.refCounter y).toNat = 1 ∨
      Collectable (successors edges) L (fun a => (h.refCounter a).toNat) y, ?_, ?_, ?_, ?_⟩
    · intro hgo
      by_cases hone : (h.refCounter y).toNat = 1
      · exact giveUp_of_one hone
      · rw [giveUp, if_neg (hnot hone), decrementGraph, hf]
        simp only [hv, Bool.true_and, hsafe.2 (hgo.resolve_left hone), if_true]
    · intro hgo
      push Not at hgo
      refine ⟨?_, hgo.1⟩
      rw [giveUp, if_neg (hnot hgo.1), decrementGraph, hf]
      simp only [hv, Bool.true_and, hsafe, hgo.2, if_false]
    · exact fun hgo => hgo.imp_right fun hc => ⟨_, hc, hrec.le⟩
    · intro hd
      by_cases hway : ShowsWay h succ L ptrTypeIndex y
      · rw [hrec.collectable_iff hd hy hway, and_iff_right hway]
      · refine ⟨fun hgo => Or.inl (hgo.elim id (hrec.alone hway)), fun hgo => Or.inl ?_⟩
        exact hgo.elim id fun hc => absurd hc.1 hway
  · -- an object without a `Visit` method has no members and is not walked
    refine ⟨(h.refCounter y).toNat = 1, giveUp_of_one, ?_, Or.inl, ?_⟩
    · intro hone
      refine ⟨?_, hone⟩
      rw [giveUp, if_neg (hnot hone), decrementGraph, hf]
      simp only [hv, Bool.false_and, Bool.false_eq_true, if_false]
    · refine fun _ => ⟨Or.inl, fun hgo => hgo.elim id ?_⟩
      rintro ⟨⟨o', hf', hr⟩, -⟩
      obtain rfl := Option.some.inj (hf.symm.trans hf')
      have hnil : o.shownTo ptrTypeIndex = [] := by
        rw [List.eq_nil_iff_forall_not_mem]
        intro s hs
        have hso := HeapObject.mem_members_of_shownTo hs
        exact hv (hw.reported o (find_mem hf).1 s hso).2
      rw [hnil] at hr
      exact absurd hr not_reachIn_nil

end GiveUp

/-- A set of live objects whose counters count the references `ext` into it and those among
the objects. -/
structure Scope (h : Heap) (succ : Address → List Address) (L : Finset Address)
    (ext : List Address) : Prop where
  objects : ∀ a ∈ L, ∃ o, h.find a = some o ∧ targets o.members = succ a
  live : ∀ a ∈ L, h.refCounter a ≠ 0
  counter : ∀ a ∈ L, (h.refCounter a).toNat = ext.count a + inDegree succ L a
  closed : ∀ a ∈ L, ∀ b ∈ succ a, h.refCounter b ≠ 0 → b ∈ L

/-- The class of the `Ptr` reports the members of its target through which a way leads back to
the target. -/
def ShowsCycles (h : Heap) (succ : Address → List Address) (L : Finset Address) (s : PtrSlot) :
    Prop :=
  ∀ y ∈ L, s.target = some y → ∀ o, h.find y = some o → ∀ m ∈ o.members,
    m ∈ o.shownTo s.typeIndex ∨ ∀ z, m.target = some z → ¬ ReachIn succ L [z] y

structure Transparent (h : Heap) (succ : Address → List Address) (L : Finset Address) : Prop where
  distinct : h.DistinctEntries L
  shows : ∀ a ∈ L, ∀ o, h.find a = some o → ∀ s ∈ o.members, ShowsCycles h succ L s

/-- What has happened when a reference is gone and `ext` are left: objects that `ext` does
not reach have been deleted, each once, `L'` is left and nothing else has changed. -/
structure Released (h h' : Heap) (succ : Address → List Address) (L L' : Finset Address)
    (ext news : List Address) : Prop where
  wellFormed : h'.WellFormed
  distinct : h.DistinctEntries L → h'.DistinctEntries L'
  same : ∀ a ∈ L', ∀ o, h'.find a = some o →
    ∃ c, h.find a = some c ∧ o = { c with refCounter := o.refCounter }
  deleted : h'.deleted = h.deleted ++ news
  nodup : news.Nodup
  kept : L' ⊆ L
  gone : ∀ a, a ∈ news ↔ a ∈ L ∧ a ∉ L'
  safe : ∀ a, ReachIn succ L ext a → a ∈ L'
  scope : Scope h' succ L' ext
  outside : ∀ a, a ∉ L → h'.find a = h.find a
  zero : ∀ a ∈ news, h'.refCounter a = 0

section Scope
variable {h h₁ h₂ : Heap} {succ : Address → List Address} {L L₁ L₂ : Finset Address}
  {ext rest news n₁ n₂ : List Address} {y : Address}

theorem Scope.region (hs : Scope h succ L ext) : Region h succ L :=
  ⟨hs.objects, hs.live, hs.closed⟩

theorem Released.refl (hw : h.WellFormed) (hs : Scope h succ L ext) :
    Released h h succ L L ext [] where
  wellFormed := hw
  distinct := id
  same := fun _ _ o ho => ⟨o, ho, rfl⟩
  deleted := (List.append_nil _).symm
  nodup := List.nodup_nil
  kept := Finset.Subset.refl L
  gone := fun _ => ⟨fun h => absurd h List.not_mem_nil, fun h => absurd h.1 h.2⟩
  safe := fun _ hr => hr.mem
  scope := hs
  outside := fun _ _ => rfl
  zero := fun _ ha => absurd ha List.not_mem_nil

theorem Released.decrement {o : HeapObject} {count : UInt16} (hw : h.WellFormed)
    (hf : h.find y = some o) (hy : y ∈ L) (hs : Scope (h.decrement y count) succ L ext) :
    Released h (h.decrement y count) succ L L ext [] where
  wellFormed := hw.decrement
  distinct := fun hd => hd.decrement
  same := by
    intro a _ c hc
    by_cases he : a = y
    · subst he
      rw [find_decrement_self hf] at hc
      exact ⟨o, hf, by rw [← Option.some.inj hc]⟩
    · exact ⟨c, by rwa [find_decrement_ne he] at hc, rfl⟩
  deleted := (List.append_nil _).symm
  nodup := List.nodup_nil
  kept := Finset.Subset.refl L
  gone := fun _ => ⟨fun h => absurd h List.not_mem_nil, fun h => absurd h.1 h.2⟩
  safe := fun _ hr => hr.mem
  scope := hs
  outside := fun _ ha => find_decrement_ne fun he => ha (he ▸ hy)
  zero := fun _ ha => absurd ha List.not_mem_nil

theorem Scope.of_dead (hs : Scope h succ L (y :: ext)) (hy : y ∉ L) : Scope h succ L ext := by
  refine ⟨hs.objects, hs.live, ?_, hs.closed⟩
  intro a ha
  have hne : y ≠ a := fun he => hy (he ▸ ha)
  rw [hs.counter a ha, List.count_cons_of_ne hne]

theorem Released.trans (r₁ : Released h h₁ succ L L₁ (rest ++ ext) n₁)
    (r₂ : Released h₁ h₂ succ L₁ L₂ ext n₂) : Released h h₂ succ L L₂ ext (n₁ ++ n₂) := by
  have hn₁ : ∀ a ∈ n₁, a ∉ L₁ := fun a ha => ((r₁.gone a).1 ha).2
  refine ⟨r₂.wellFormed, fun hd => r₂.distinct (r₁.distinct hd), ?_, ?_, ?_,
    r₂.kept.trans r₁.kept, ?_, ?_, r₂.scope, ?_, ?_⟩
  · intro a ha o ho
    obtain ⟨c₁, hc₁, he₁⟩ := r₂.same a ha o ho
    obtain ⟨c, hc, he⟩ := r₁.same a (r₂.kept ha) c₁ hc₁
    exact ⟨c, hc, by rw [he₁, he]⟩
  · rw [r₂.deleted, r₁.deleted, List.append_assoc]
  · refine r₁.nodup.append r₂.nodup fun a h₁ h₂ => ?_
    exact hn₁ a h₁ ((r₂.gone a).1 h₂).1
  · intro a
    rw [List.mem_append, r₁.gone, r₂.gone]
    constructor
    · rintro (⟨hL, hno⟩ | ⟨hL, hno⟩)
      · exact ⟨hL, fun hm => hno (r₂.kept hm)⟩
      · exact ⟨r₁.kept hL, hno⟩
    · rintro ⟨hL, hno⟩
      by_cases hL₁ : a ∈ L₁
      · exact Or.inr ⟨hL₁, hno⟩
      · exact Or.inl ⟨hL, hL₁⟩
  · intro a hr
    refine r₂.safe a (hr.restrict fun c hc => r₁.safe c ?_)
    exact hc.mono_starts (List.subset_append_right _ _)
  · intro a ha
    rw [r₂.outside a fun hm => ha (r₁.kept hm), r₁.outside a ha]
  · intro a ha
    rcases List.mem_append.1 ha with ha | ha
    · rw [refCounter, r₂.outside a (hn₁ a ha), ← refCounter]
      exact r₁.zero a ha
    · exact r₂.zero a ha

theorem ShowsCycles.mono {s : PtrSlot} {M : Finset Address} (hs : ShowsCycles h succ L s)
    (hM : M ⊆ L) : ShowsCycles h succ M s := by
  intro a ha ht c hc m hm
  exact (hs a (hM ha) ht c hc m hm).imp_right fun hno z hz hr => hno z hz (hr.mono hM)

theorem ShowsCycles.released {s : PtrSlot} (r : Released h h₁ succ L L₁ ext news)
    (hs : ShowsCycles h succ L s) : ShowsCycles h₁ succ L₁ s := by
  intro y hy ht o ho m hm
  obtain ⟨c, hc, he⟩ := r.same y hy o ho
  rw [he] at hm ⊢
  exact hs.mono r.kept y hy ht c hc m hm

theorem Transparent.released (r : Released h h₁ succ L L₁ ext news)
    (ht : Transparent h succ L) : Transparent h₁ succ L₁ := by
  refine ⟨r.distinct ht.distinct, fun a ha o ho s hs => ?_⟩
  obtain ⟨c, hc, he⟩ := r.same a ha o ho
  exact (ht.shows a (r.kept ha) c hc s (by rwa [he] at hs)).released r

theorem ShowsCycles.showsWay {s : PtrSlot} (hs : ShowsCycles h succ L s)
    (hR : Region h succ L) (ht : s.target = some y) (hy : y ∈ L)
    (hr : ReachIn succ L (succ y) y) : ShowsWay h succ L s.typeIndex y := by
  obtain ⟨o, ho, hsucc⟩ := hR.objects y hy
  obtain ⟨z, hz, hzL, hzy⟩ := hr.exists_start
  rw [← hsucc] at hz
  obtain ⟨m, hm, htz⟩ := List.mem_filterMap.1 hz
  have hshown := (hs y hy ht o ho m hm).resolve_right fun hno => hno z htz hzy
  refine ⟨o, ho, hzy.trans fun c hc hL => ?_⟩
  obtain rfl := List.mem_singleton.1 hc
  exact .start (List.mem_filterMap.2 ⟨m, hshown, htz⟩) hL

def Known (h : Heap) (L : Finset Address) (t : Address) : Prop := t ∈ L ∨ h.refCounter t = 0

theorem Released.known {t : Address} (r : Released h h₁ succ L L₁ ext news) (ht : Known h L t) :
    Known h₁ L₁ t := by
  by_cases hL₁ : t ∈ L₁
  · exact Or.inl hL₁
  right
  by_cases hL : t ∈ L
  · exact r.zero t ((r.gone t).2 ⟨hL, hL₁⟩)
  · rw [refCounter, r.outside t hL, ← refCounter]
    exact ht.resolve_left hL

theorem known_erase {o : HeapObject} {t : Address} (hf : h.find y = some o)
    (ht : h.refCounter t ≠ 0 → t ∈ L) :
    Known (h.decrement y (h.refCounter y)) (L.erase y) t := by
  by_cases he : t = y
  · subst he
    exact Or.inr (refCounter_decrement_all hf)
  · by_cases hlive : h.refCounter t = 0
    · right
      rw [refCounter_decrement_ne he]
      exact hlive
    · exact Or.inl (Finset.mem_erase.2 ⟨he, ht hlive⟩)

theorem Scope.keep (hs : Scope h succ L (y :: ext)) (hy : y ∈ L)
    (hone : (h.refCounter y).toNat ≠ 1) :
    Scope (h.decrement y 1) succ L ext ∧ (h.decrement y 1).refCounter y ≠ 0 := by
  obtain ⟨o, ho, hsucc⟩ := hs.objects y hy
  have hcnt := hs.counter y hy
  rw [List.count_cons_self] at hcnt
  have hle : (1 : UInt16) ≤ h.refCounter y := by
    rw [UInt16.le_iff_toNat_le]
    change 1 ≤ _
    omega
  have hself : ((h.decrement y 1).refCounter y).toNat = (h.refCounter y).toNat - 1 := by
    rw [refCounter_decrement_self ho, UInt16.toNat_sub_of_le _ _ hle]
    rfl
  have hlive : (h.decrement y 1).refCounter y ≠ 0 := by
    intro hz
    rw [hz] at hself
    simp only [UInt16.toNat_zero] at hself
    omega
  refine ⟨⟨?_, ?_, ?_, ?_⟩, hlive⟩
  · intro a ha
    by_cases he : a = y
    · subst he
      exact ⟨_, find_decrement_self ho, hsucc⟩
    · rw [find_decrement_ne he]
      exact hs.objects a ha
  · intro a ha
    by_cases he : a = y
    · exact he ▸ hlive
    · rw [refCounter_decrement_ne he]
      exact hs.live a ha
  · intro a ha
    by_cases he : a = y
    · subst he
      omega
    · rw [refCounter_decrement_ne he, hs.counter a ha, List.count_cons_of_ne (Ne.symm he)]
  · intro a ha b hb hlive
    by_cases he : b = y
    · exact he ▸ hy
    · rw [refCounter_decrement_ne he] at hlive
      exact hs.closed a ha b hb hlive

theorem Scope.release {out : List Address} (hs : Scope h succ L (y :: ext)) (hy : y ∈ L)
    (hout : out.Perm (succ y)) :
    Scope (h.decrement y (h.refCounter y)) succ (L.erase y) (out ++ ext) := by
  obtain ⟨o, ho, -⟩ := hs.objects y hy
  have hzero := refCounter_decrement_all ho
  refine ⟨?_, ?_, ?_, ?_⟩
  · intro a ha
    obtain ⟨hne, hL⟩ := Finset.mem_erase.1 ha
    rw [find_decrement_ne hne]
    exact hs.objects a hL
  · intro a ha
    obtain ⟨hne, hL⟩ := Finset.mem_erase.1 ha
    rw [refCounter_decrement_ne hne]
    exact hs.live a hL
  · intro a ha
    obtain ⟨hne, hL⟩ := Finset.mem_erase.1 ha
    rw [refCounter_decrement_ne hne, hs.counter a hL, List.count_cons_of_ne (Ne.symm hne),
      inDegree_erase hy, List.count_append, hout.count_eq]
    omega
  · intro a ha b hb hlive
    have hne : b ≠ y := by
      rintro rfl
      exact hlive hzero
    rw [refCounter_decrement_ne hne] at hlive
    exact Finset.mem_erase.2 ⟨hne, hs.closed a (Finset.mem_erase.1 ha).2 b hb hlive⟩

def free (h : Heap) (a : Address) : Heap :=
  { h.modifyObject a fun o => { o with members := [] } with deleted := h.deleted ++ [a] }

theorem find_free_ne {a b : Address} (hne : b ≠ a) : (h.free a).find b = h.find b :=
  find_modifyObject_ne (h := h) (fun _ => rfl) hne

theorem refCounter_free {a b : Address} : (h.free a).refCounter b = h.refCounter b :=
  refCounter_modifyObject (h := h) (fun _ => rfl) fun _ => rfl

theorem onlyLoses_free (a : Address) : OnlyLoses fun o =>
    if o.address = a then { o with members := [] } else o := by
  intro o
  dsimp only
  split_ifs
  · exact ⟨rfl, rfl, fun _ hs => absurd hs List.not_mem_nil⟩
  · exact ⟨rfl, rfl, fun s hs => ⟨s, hs, rfl⟩⟩

theorem entries_splitMembers_nil (a : Address) (typeIndex : ℕ) (bases : List BaseClass)
    (members : List PtrSlot) :
    ((HeapObject.splitMembers typeIndex bases []).flatMap (ObjectPart.entries a)).Sublist
      ((HeapObject.splitMembers typeIndex bases members).flatMap (ObjectPart.entries a)) := by
  induction bases generalizing members with
  | nil => simp [HeapObject.splitMembers, ObjectPart.entries, ObjectPart.entry]
  | cons b rest ih =>
    simp only [HeapObject.splitMembers, List.drop_nil, List.take_nil, List.flatMap_append]
    refine (ih _).append ?_
    simp [ObjectPart.entries, ObjectPart.entry]

theorem DistinctEntries.free (hd : h.DistinctEntries L) (a : Address) :
    (h.free a).DistinctEntries L := by
  refine hd.mapObjects fun o => ?_
  split_ifs
  · exact ⟨rfl, entries_splitMembers_nil _ _ _ _⟩
  · exact ⟨rfl, List.Sublist.refl _⟩

theorem Released.delete {c : UInt16} (hy : y ∈ L) (hno : ¬ ReachIn succ L ext y)
    (hzero : (h.decrement y c).refCounter y = 0)
    (r : Released (h.decrement y c) h₂ succ (L.erase y) L₂ ext news) :
    Released h (h₂.free y) succ L L₂ ext (news ++ [y]) := by
  have hnot : y ∉ news := fun hm => Finset.notMem_erase y L ((r.gone y).1 hm).1
  have hne : ∀ a ∈ L₂, a ≠ y := fun a ha => (Finset.mem_erase.1 (r.kept ha)).1
  refine ⟨r.wellFormed.mapObjects (onlyLoses_free y), fun hd => ?_, ?_, ?_, ?_,
    r.kept.trans (Finset.erase_subset y L), ?_, fun a ha => r.safe a ((reachIn_erase hno).2 ha),
    ⟨?_, ?_, ?_, ?_⟩, ?_, ?_⟩
  · exact (r.distinct (hd.mono (Finset.erase_subset y L)).decrement).free y
  · intro a ha o ho
    rw [find_free_ne (hne a ha)] at ho
    obtain ⟨c, hc, he⟩ := r.same a ha o ho
    exact ⟨c, by rwa [find_decrement_ne (hne a ha)] at hc, he⟩
  · change h₂.deleted ++ [y] = _
    rw [r.deleted, List.append_assoc]
    rfl
  · refine r.nodup.append (List.nodup_singleton y) ?_
    intro a ha ha'
    exact hnot (List.mem_singleton.1 ha' ▸ ha)
  · intro a
    rw [List.mem_append, List.mem_singleton, r.gone, Finset.mem_erase]
    constructor
    · rintro (⟨⟨-, hL⟩, hr⟩ | rfl)
      · exact ⟨hL, hr⟩
      · exact ⟨hy, fun hm => hne a hm rfl⟩
    · rintro ⟨hL, hr⟩
      by_cases he : a = y
      · exact Or.inr he
      · exact Or.inl ⟨⟨he, hL⟩, hr⟩
  · intro a ha
    rw [find_free_ne (hne a ha)]
    exact r.scope.objects a ha
  · intro a ha
    rw [refCounter_free]
    exact r.scope.live a ha
  · intro a ha
    rw [refCounter_free]
    exact r.scope.counter a ha
  · intro a ha b hb hlive
    rw [refCounter_free] at hlive
    exact r.scope.closed a ha b hb hlive
  · intro a ha
    have hay : a ≠ y := by
      rintro rfl
      exact ha hy
    rw [find_free_ne hay, r.outside a fun hm => ha (Finset.mem_erase.1 hm).2,
      find_decrement_ne hay]
  · intro a ha
    rw [refCounter_free]
    rcases List.mem_append.1 ha with ha | ha
    · exact r.zero a ha
    · obtain rfl := List.mem_singleton.1 ha
      rw [refCounter, r.outside a (Finset.notMem_erase a L), ← refCounter]
      exact hzero

end Scope

/-- What giving up the references of `slots` does, into a set of objects that they and `ext` lead
to: if the walks see all, nothing that `ext` does not reach is left. -/
def Gives (h h' : Heap) (succ : Address → List Address) (L : Finset Address)
    (slots : List PtrSlot) (ext : List Address) : Prop :=
  ∃ L' news, Released h h' succ L L' ext news ∧
    (Transparent h succ L → (∀ s ∈ slots, ShowsCycles h succ L s) →
      Rooted succ L (targets slots ++ ext) → Rooted succ L' ext)

def ResetsSlot (succ : Address → List Address) (bound : ℕ) (reset : Heap → PtrSlot → Heap) :
    Prop :=
  ∀ (h : Heap) (L : Finset Address) (ext : List Address) (s : PtrSlot), h.WellFormed →
    (∀ t ∈ targets [s], Known h L t) → Scope h succ L (targets [s] ++ ext) → L.card ≤ bound →
      Gives h (reset h s) succ L [s] ext

section Cascade
variable {succ : Address → List Address} {bound : ℕ} {reset : Heap → PtrSlot → Heap}

theorem targets_cons (s : PtrSlot) (slots : List PtrSlot) :
    targets (s :: slots) = targets [s] ++ targets slots := by
  unfold targets
  rw [← List.filterMap_append]
  rfl

theorem resetAll_spec (hreset : ResetsSlot succ bound reset) (slots : List PtrSlot) (h : Heap)
    (L : Finset Address) (ext : List Address) (hw : h.WellFormed)
    (hk : ∀ t ∈ targets slots, Known h L t) (hs : Scope h succ L (targets slots ++ ext))
    (hb : L.card ≤ bound) : Gives h (slots.foldl reset h) succ L slots ext := by
  induction slots generalizing h L with
  | nil => exact ⟨L, [], Released.refl hw hs, fun _ _ hroot => hroot⟩
  | cons s rest ih =>
    rw [targets_cons] at hk hs
    rw [List.append_assoc] at hs
    obtain ⟨L₁, n₁, r₁, hroot₁⟩ := hreset h L (targets rest ++ ext) s hw
      (fun t ht => hk t (List.mem_append_left _ ht)) hs hb
    obtain ⟨L₂, n₂, r₂, hroot₂⟩ := ih (reset h s) L₁ r₁.wellFormed
      (fun t ht => r₁.known (hk t (List.mem_append_right _ ht))) r₁.scope
      ((Finset.card_le_card r₁.kept).trans hb)
    refine ⟨L₂, n₁ ++ n₂, r₁.trans r₂, fun ht hshow hroot => ?_⟩
    rw [targets_cons, List.append_assoc] at hroot
    refine hroot₂ (ht.released r₁) (fun t hm => ?_) (hroot₁ ht (fun t hm => ?_) hroot)
    · exact (hshow t (List.mem_cons_of_mem _ hm)).released r₁
    · exact hshow t (List.mem_singleton.1 hm ▸ List.mem_cons_self)

theorem deleteObject_spec {h : Heap} {L : Finset Address} {ext : List Address} {y : Address}
    {o : HeapObject} (hreset : ResetsSlot succ bound reset) (hw : h.WellFormed)
    (hf : h.find y = some o)
    (hk : ∀ t ∈ targets o.members, Known (h.decrement y (h.refCounter y)) (L.erase y) t)
    (hs : Scope (h.decrement y (h.refCounter y)) succ (L.erase y)
      (targets o.members.reverse ++ ext)) (hb : (L.erase y).card ≤ bound) :
    ∃ h₂, (h.decrement y (h.refCounter y)).deleteObject reset y = h₂.free y ∧
      Gives (h.decrement y (h.refCounter y)) h₂ succ (L.erase y) o.members.reverse ext := by
  have hk' : ∀ t ∈ targets o.members.reverse,
      Known (h.decrement y (h.refCounter y)) (L.erase y) t := by
    intro t ht
    unfold targets at ht
    rw [List.filterMap_reverse, List.mem_reverse] at ht
    exact hk t ht
  refine ⟨_, ?_, resetAll_spec hreset o.members.reverse _ _ _ hw.decrement hk' hs hb⟩
  unfold deleteObject
  rw [find_decrement_self hf]
  rfl

theorem targets_reverse_perm (slots : List PtrSlot) :
    (targets slots.reverse).Perm (targets slots) := by
  unfold targets
  rw [List.filterMap_reverse]
  exact List.reverse_perm _

section Target
variable {h : Heap} {L S : Finset Address} {ext : List Address} {s : PtrSlot} {y : Address}

theorem Scope.not_reachIn {ptrTypeIndex : ℕ} {go : Prop} (hs : Scope h succ L (y :: ext))
    (hdec : Decides h succ L ptrTypeIndex y go) (hgo : go) : ¬ ReachIn succ L ext y := by
  rcases hdec.sound hgo with hone | ⟨seen, hc, hle⟩
  · intro hr
    have hpos := hr.counted
    have hcnt := hs.counter y hr.mem
    rw [List.count_cons_self] at hcnt
    omega
  · exact hc.not_reachIn hle hs.counter

theorem Scope.reachIn_of_kept {go : Prop} (hs : Scope h succ L (y :: ext))
    (hroot : Rooted succ L (y :: ext)) (ht : s.target = some y) (hy : y ∈ L)
    (htr : Transparent h succ L) (hshow : ShowsCycles h succ L s)
    (hdec : Decides h succ L s.typeIndex y go) (hno : ¬ go) : ReachIn succ L ext y := by
  by_contra hr
  have hc := hroot.collectable hs.counter hy hr
  refine hno ((hdec.exact htr.distinct).2 ?_)
  by_cases hcycle : ReachIn succ L (succ y) y
  · exact Or.inr ⟨hshow.showsWay hs.region ht hy hcycle, hc⟩
  · have halone := hc.alone
    rw [inDegree_sub_of_no_cycle hy hcycle] at halone
    exact Or.inl halone

theorem transparent_erase {o : HeapObject} (hd : h.DistinctEntries L)
    (hshow : ∀ a ∈ L, ∀ c, h.find a = some c → ∀ s ∈ c.members, ShowsCycles h succ (L.erase y) s)
    (hf : h.find y = some o) (hy : y ∈ L) :
    Transparent (h.decrement y (h.refCounter y)) succ (L.erase y) ∧
      ∀ s ∈ o.members.reverse,
        ShowsCycles (h.decrement y (h.refCounter y)) succ (L.erase y) s := by
  have hsame : ∀ s, ShowsCycles h succ (L.erase y) s →
      ShowsCycles (h.decrement y (h.refCounter y)) succ (L.erase y) s := by
    intro s hs a ha hta c hc
    rw [find_decrement_ne (Finset.mem_erase.1 ha).1] at hc
    exact hs a ha hta c hc
  refine ⟨⟨(hd.mono (Finset.erase_subset y L)).decrement, fun a ha c hc s hs => hsame s ?_⟩,
    fun s hs => hsame s (hshow y hy o hf s (List.mem_reverse.1 hs))⟩
  obtain ⟨hne, haL⟩ := Finset.mem_erase.1 ha
  rw [find_decrement_ne hne] at hc
  exact hshow a haL c hc s hs

theorem reset_of_live {fuel : ℕ} (ih : ResetsSlot succ fuel (Heap.reset fuel))
    (hw : h.WellFormed) (hs : Scope h succ L (y :: ext)) (ht : s.target = some y) (hy : y ∈ L)
    (hb : L.card ≤ fuel + 1) : Gives h (Heap.reset (fuel + 1) h s) succ L [s] ext := by
  obtain ⟨go, hdec⟩ := giveUp_spec hw hs.region hy s.typeIndex
  have hone : targets [s] = [y] := by simp [targets, ht]
  have hreset : Heap.reset (fuel + 1) h s = if (h.giveUp s.typeIndex y).refCounter y = 0
      then (h.giveUp s.typeIndex y).deleteObject (Heap.reset fuel) y
      else h.giveUp s.typeIndex y := by
    simp [Heap.reset, ht, hs.live y hy]
  obtain ⟨o, hf, hsucc⟩ := hs.objects y hy
  unfold Gives
  rw [hone]
  by_cases hgo : go
  · have hzero := refCounter_decrement_all hf
    have hperm : (targets o.members.reverse).Perm (succ y) :=
      hsucc ▸ targets_reverse_perm o.members
    have hcard : (L.erase y).card ≤ fuel := by
      rw [Finset.card_erase_of_mem hy]
      omega
    have hknown : ∀ t ∈ targets o.members,
        Known (h.decrement y (h.refCounter y)) (L.erase y) t :=
      fun t htm => known_erase hf (hs.closed y hy t (hsucc ▸ htm))
    obtain ⟨h₂, hdel, L₂, news, r, hroot⟩ :=
      deleteObject_spec ih hw hf hknown (hs.release hy hperm) hcard
    rw [hreset, hdec.yes hgo, if_pos hzero, hdel]
    refine ⟨L₂, news ++ [y], r.delete hy (hs.not_reachIn hdec hgo) hzero, fun htr _ hr => ?_⟩
    obtain ⟨htr', hshow⟩ := transparent_erase htr.distinct
      (fun a ha c hc t ht => (htr.shows a ha c hc t ht).mono (Finset.erase_subset y L)) hf hy
    exact hroot htr' hshow (hr.erase hperm.symm.subset)
  · obtain ⟨hgive, hcount⟩ := hdec.no hgo
    obtain ⟨hkeep, hlive⟩ := hs.keep hy hcount
    rw [hreset, hgive, if_neg hlive]
    refine ⟨L, [], Released.decrement hw hf hy hkeep, fun htr hshow hroot => ?_⟩
    have hshow := hshow s (List.mem_singleton_self s)
    exact Rooted.of_cons hroot fun _ => hs.reachIn_of_kept hroot ht hy htr hshow hdec hgo

end Target

/-- `Reset`, by induction on the fuel: it is enough for the objects that are still there. -/
theorem reset_spec (succ : Address → List Address) (fuel : ℕ) :
    ResetsSlot succ fuel (Heap.reset fuel) := by
  induction fuel with
  | zero =>
    intro h L ext s hw _ _ hb
    have hempty : L = ∅ := Finset.card_eq_zero.1 (Nat.le_zero.1 hb)
    subst hempty
    refine ⟨∅, [], Released.refl hw ⟨?_, ?_, ?_, ?_⟩, fun _ _ _ => ?_⟩ <;>
      exact fun a ha => absurd ha (Finset.notMem_empty a)
  | succ fuel ih =>
    intro h L ext s hw hk hs hb
    cases ht : s.target with
    | none =>
      have hnil : targets [s] = [] := by simp [targets, ht]
      have hr : Heap.reset (fuel + 1) h s = h := by simp [Heap.reset, ht]
      unfold Gives
      rw [hnil] at hs ⊢
      rw [hr]
      exact ⟨L, [], Released.refl hw hs, fun _ _ hroot => hroot⟩
    | some y =>
      have hone : targets [s] = [y] := by simp [targets, ht]
      rw [hone] at hs hk
      by_cases hz : h.refCounter y = 0
      · have hr : Heap.reset (fuel + 1) h s = h := by simp [Heap.reset, ht, hz]
        have hy : y ∉ L := fun hy => hs.live y hy hz
        unfold Gives
        rw [hone, hr]
        exact ⟨L, [], Released.refl hw (hs.of_dead hy),
          fun _ _ hroot => Rooted.of_cons hroot fun hL => absurd hL hy⟩
      · exact reset_of_live ih hw hs ht ((hk y (List.mem_singleton_self y)).resolve_right hz) hb

end Cascade
end Heap
end AetherClient
