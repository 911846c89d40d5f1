import AetherClient.PtrOperations

set_option autoImplicit false

/-!
# Balanced counters

Between the steps of an operation some references are on their way: a `Ptr` has been given up
that is still there, or a copy has been counted that nobody has stored yet. `Balanced` lists
them: `refs` are counted as `Ptr`s and `shares` as `SharedPointer`s, in addition to those that are
stored, and `dying` are the objects that are being deleted. `Reset` takes one reference out of
`refs`, and whatever it deletes on the way is balanced again in the end.
-/
namespace AetherClient
open Relation

namespace Heap
variable {h : Heap} {a b : Address} {o : HeapObject} {f : HeapObject → HeapObject}

theorem slots_perm {slots : List PtrSlot} {s : PtrSlot} (hn : (slots.map PtrSlot.address).Nodup)
    (hs : s ∈ slots) : slots.Perm (s :: slots.filter fun t => t.address ≠ s.address) := by
  have hperm := List.filter_append_perm (fun t => decide (t.address = s.address)) slots
  rw [filter_address_eq hn hs] at hperm
  have hnot : (fun t : PtrSlot => !decide (t.address = s.address)) =
      fun t => decide (t.address ≠ s.address) := by
    funext t
    simp
  rw [hnot] at hperm
  exact hperm.symm

theorem find_of_nodup (hn : (h.objects.map HeapObject.address).Nodup) (ho : o ∈ h.objects) :
    h.find o.address = some o := Tables.find_of_key hn ho

theorem find_of_addresses (ha : a ∈ h.addresses) : ∃ o, h.find a = some o := by
  obtain ⟨o, ho, rfl⟩ := mem_addresses_iff.mp ha
  cases hf : h.find o.address with
  | some c => exact ⟨c, rfl⟩
  | none => exact absurd (List.find?_eq_none.mp hf o ho) (by simp)

theorem refCounter_of_find (hf : h.find a = some o) : h.refCounter a = o.refCounter := by
  rw [refCounter, hf]
  rfl

theorem edge_of_find (hf : h.find a = some o) : h.Edge a b ↔ b ∈ targets o.members := by
  rw [Edge, succ, hf]
  rfl

theorem slots_modifyObject (hm : ∀ o, (f o).members = o.members) :
    (h.modifyObject a f).slots = h.slots := by
  unfold Heap.slots modifyObject
  rw [List.flatMap_map]
  congr 2
  funext o
  split
  · exact hm o
  · rfl

theorem succ_modifyObject (ha : ∀ o, (f o).address = o.address)
    (hm : ∀ o, (f o).members = o.members) : (h.modifyObject a f).succ b = h.succ b := by
  rw [succ, find_modifyObject ha, succ]
  cases h.find b with
  | none => rfl
  | some o =>
    simp only [Option.map_some, Option.getD_some]
    split
    · rw [hm]
    · rfl

theorem map_address_modifyObject (ha : ∀ o, (f o).address = o.address) :
    (h.modifyObject a f).objects.map HeapObject.address = h.objects.map HeapObject.address := by
  rw [modifyObject, List.map_map]
  apply List.map_congr_left
  intro o _
  simp only [Function.comp]
  split
  · exact ha o
  · rfl

theorem members_perm {objects : List HeapObject} (hn : (objects.map HeapObject.address).Nodup)
    (ho : o ∈ objects) : (objects.flatMap HeapObject.members).Perm (o.members ++
      (objects.map fun c => if c.address = o.address then { c with members := [] } else c).flatMap
        HeapObject.members) := by
  induction objects with
  | nil => cases ho
  | cons c rest ih =>
    obtain ⟨hnot, hrest⟩ := List.nodup_cons.mp hn
    rw [List.map_cons, List.flatMap_cons, List.flatMap_cons]
    obtain rfl | ho := List.mem_cons.mp ho
    · have hsame : rest.map (fun c => if c.address = o.address then { c with members := [] } else c) =
          rest := by
        conv_rhs => rw [← List.map_id rest]
        apply List.map_congr_left
        intro c hc
        have hne : c.address ≠ o.address := fun he => hnot (he ▸ List.mem_map_of_mem hc)
        exact if_neg hne
      rw [hsame, if_pos rfl]
      rfl
    · have hne : c.address ≠ o.address := fun he => hnot (he ▸ List.mem_map_of_mem ho)
      rw [if_neg hne]
      have hperm := (ih hrest ho).append_left c.members
      exact hperm.trans (List.perm_append_comm_assoc _ _ _)

end Heap

namespace PtrState
open Heap

def held (w : PtrState) : List Address :=
  targets (w.heap.slots.filter fun s => s.address ∉ w.released)

structure Balanced (w : PtrState) (refs shares dying : List Address) : Prop where
  addresses : (w.heap.objects.map HeapObject.address).Nodup
  slots : (w.heap.slots.map PtrSlot.address).Nodup
  known : ∀ t ∈ refs ++ shares ++ targets w.heap.slots, t ∈ w.heap.addresses
  counter : ∀ a, w.heap.refCounter a ≠ 0 →
    (w.heap.refCounter a).toNat = (refs ++ w.held).count a
  unheld : ∀ a, w.heap.refCounter a = 0 → a ∉ w.held
  manage : ∀ a, (w.manageCounter a).toNat = (shares ++ targets w.heap.slots).count a
  freed : ∀ a ∈ w.freedManagers, a ∈ w.heap.addresses ∧ a ∉ shares ++ targets w.heap.slots
  gone : ∀ a, a ∈ w.heap.deleted ++ dying ↔ a ∈ w.heap.addresses ∧ w.heap.refCounter a = 0
  once : (w.heap.deleted ++ dying).Nodup
  memberless : ∀ a o, w.heap.find a = some o → w.heap.refCounter a = 0 → o.members = []
  acyclic : w.heap.Acyclic
  unshifted : ∀ p, w.shift p = 0
  unbroken : w.broken = false

/-- What an operation may do to the heap on the side: objects lose references and are deleted. -/
structure Shrinks (w w' : PtrState) : Prop where
  freePtrs : w'.heap.freePtrs = w.heap.freePtrs
  released : w'.released = w.released
  addresses : w'.heap.objects.map HeapObject.address = w.heap.objects.map HeapObject.address
  slots : w'.heap.slots.Sublist w.heap.slots
  find : ∀ a o', w'.heap.find a = some o' → ∃ o, w.heap.find a = some o ∧
    (o'.members = o.members ∨ w'.heap.refCounter a = 0 ∧ o'.members = [])
  dead : ∀ a, w.heap.refCounter a = 0 → w'.heap.refCounter a = 0

section Shrinks
variable {w w₁ w₂ : PtrState} {a b : Address}

theorem Shrinks.refl (w : PtrState) : Shrinks w w :=
  ⟨rfl, rfl, rfl, List.Sublist.refl _, fun _ o h => ⟨o, h, .inl rfl⟩, fun _ h => h⟩

theorem Shrinks.trans (h₁ : Shrinks w w₁) (h₂ : Shrinks w₁ w₂) : Shrinks w w₂ where
  freePtrs := h₂.freePtrs.trans h₁.freePtrs
  released := h₂.released.trans h₁.released
  addresses := h₂.addresses.trans h₁.addresses
  slots := h₂.slots.trans h₁.slots
  find := by
    intro a o₂ hf₂
    obtain ⟨o₁, hf₁, hmem₂⟩ := h₂.find a o₂ hf₂
    obtain ⟨o, hf, hmem₁⟩ := h₁.find a o₁ hf₁
    refine ⟨o, hf, ?_⟩
    obtain hmem₂ | hgone := hmem₂
    · exact hmem₁.imp (fun h => hmem₂.trans h) fun h => ⟨h₂.dead a h.1, hmem₂.trans h.2⟩
    · exact .inr hgone
  dead a h := h₂.dead a (h₁.dead a h)

theorem Shrinks.edge (h : Shrinks w w₁) (he : w₁.heap.Edge a b) : w.heap.Edge a b := by
  cases hf₁ : w₁.heap.find a with
  | none =>
    rw [Edge, succ, hf₁] at he
    cases he
  | some o₁ =>
    rw [edge_of_find hf₁] at he
    obtain ⟨o, hf, hmem | ⟨-, hnil⟩⟩ := h.find a o₁ hf₁
    · rwa [edge_of_find hf, ← hmem]
    · rw [hnil] at he
      cases he

theorem Shrinks.reaches (h : Shrinks w w₁) (hr : w₁.heap.Reaches a b) : w.heap.Reaches a b :=
  ReflTransGen.lift id (fun _ _ he => h.edge he) _ _ hr

theorem Shrinks.acyclic (h : Shrinks w w₁) (hw : w.heap.Acyclic) : w₁.heap.Acyclic :=
  fun a hr => hw a (TransGen.lift id (fun _ _ he => h.edge he) _ _ hr)

theorem Shrinks.mem_addresses (h : Shrinks w w₁) : a ∈ w₁.heap.addresses ↔ a ∈ w.heap.addresses := by
  rw [Heap.addresses, Heap.addresses, h.addresses]

theorem Shrinks.held (h : Shrinks w w₁) : w₁.held.Sublist w.held := by
  unfold PtrState.held
  rw [h.released]
  exact (h.slots.filter _).filterMap _

theorem Shrinks.members (h : Shrinks w w₁) {o : HeapObject} (hf : w.heap.find a = some o)
    (hlive : w₁.heap.refCounter a ≠ 0) : ∃ o₁, w₁.heap.find a = some o₁ ∧ o₁.members = o.members := by
  cases hf₁ : w₁.heap.find a with
  | none =>
    rw [refCounter, hf₁] at hlive
    exact absurd rfl hlive
  | some o₁ =>
    obtain ⟨c, hc, hmem | hgone⟩ := h.find a o₁ hf₁
    · obtain rfl := Option.some.inj (hf.symm.trans hc)
      exact ⟨o₁, rfl, hmem⟩
    · exact absurd hgone.1 hlive

end Shrinks

section Steps
variable {w : PtrState} {refs shares dying : List Address} {y : Address} {o : HeapObject}

theorem Balanced.find_of_refs (hb : Balanced w (y :: refs) shares dying) :
    ∃ o, w.heap.find y = some o :=
  find_of_addresses (hb.known y (by simp))

theorem Balanced.of_dead (hb : Balanced w (y :: refs) shares dying)
    (hdead : w.heap.refCounter y = 0) : Balanced w refs shares dying := by
  refine { hb with known := fun t ht => hb.known t (List.mem_cons_of_mem _ ht), counter := ?_ }
  intro a ha
  have hne : y ≠ a := fun he => ha (he ▸ hdead)
  rw [hb.counter a ha, List.cons_append, List.count_cons_of_ne hne]

theorem Balanced.not_freed (hb : Balanced w refs shares dying)
    (hy : y ∈ shares ++ targets w.heap.slots) : y ∉ w.freedManagers :=
  fun hfreed => (hb.freed y hfreed).2 hy

theorem touch_eq (hy : y ∉ w.freedManagers) : w.touch y = w := by
  simp [touch, hy]

theorem find_of_live (hlive : w.heap.refCounter y ≠ 0) : ∃ o, w.heap.find y = some o := by
  cases hf : w.heap.find y with
  | some o => exact ⟨o, rfl⟩
  | none =>
    rw [refCounter, hf] at hlive
    exact absurd rfl hlive

def withCounter (w : PtrState) (a : Address) (f : UInt16 → UInt16) : PtrState :=
  { w with heap := w.heap.modifyObject a fun o => { o with refCounter := f o.refCounter } }

section WithCounter
variable (w) (y) (f : UInt16 → UInt16)

theorem slots_withCounter : (w.withCounter y f).heap.slots = w.heap.slots :=
  slots_modifyObject fun _ => rfl

theorem held_withCounter : (w.withCounter y f).held = w.held := by
  unfold held
  rw [slots_withCounter]
  rfl

theorem addresses_withCounter : (w.withCounter y f).heap.objects.map HeapObject.address =
    w.heap.objects.map HeapObject.address :=
  map_address_modifyObject fun _ => rfl

theorem mem_addresses_withCounter {a : Address} :
    a ∈ (w.withCounter y f).heap.addresses ↔ a ∈ w.heap.addresses := by
  rw [Heap.addresses, Heap.addresses, addresses_withCounter]

theorem find_withCounter (a : Address) : (w.withCounter y f).heap.find a = (w.heap.find a).map
    fun o => if o.address = y then { o with refCounter := f o.refCounter } else o :=
  find_modifyObject fun _ => rfl

theorem refCounter_withCounter_ne {a : Address} (hne : a ≠ y) :
    (w.withCounter y f).heap.refCounter a = w.heap.refCounter a := by
  have hfind : (w.withCounter y f).heap.find a = w.heap.find a :=
    find_modifyObject_ne (fun _ => rfl) hne
  rw [refCounter, hfind, refCounter]

variable {w y f}

theorem refCounter_withCounter (hf : w.heap.find y = some o) :
    (w.withCounter y f).heap.refCounter y = f (w.heap.refCounter y) := by
  have hfind : (w.withCounter y f).heap.find y = some { o with refCounter := f o.refCounter } :=
    find_modifyObject_self (fun _ => rfl) hf
  rw [refCounter_of_find hfind, refCounter_of_find hf]

theorem find_members_withCounter {a : Address} {o' : HeapObject}
    (hf : (w.withCounter y f).heap.find a = some o') :
    ∃ o, w.heap.find a = some o ∧ o'.members = o.members := by
  rw [find_withCounter] at hf
  obtain ⟨o, hfo, rfl⟩ := Option.map_eq_some_iff.mp hf
  refine ⟨o, hfo, ?_⟩
  split <;> rfl

theorem acyclic_withCounter (h : w.heap.Acyclic) : (w.withCounter y f).heap.Acyclic := by
  have hedge : (w.withCounter y f).heap.Edge = w.heap.Edge := by
    funext a b
    have hsucc : (w.withCounter y f).heap.succ a = w.heap.succ a :=
      succ_modifyObject (fun _ => rfl) fun _ => rfl
    rw [Edge, Edge, hsucc]
  rw [Acyclic, hedge]
  exact h

theorem shrinks_withCounter (hdead : w.heap.refCounter y ≠ 0) :
    Shrinks w (w.withCounter y f) where
  freePtrs := rfl
  released := rfl
  addresses := addresses_withCounter w y f
  slots := by rw [slots_withCounter]
  find a o' hf := by
    obtain ⟨o, hfo, hm⟩ := find_members_withCounter hf
    exact ⟨o, hfo, .inl hm⟩
  dead a ha := by
    have hne : a ≠ y := fun he => hdead (he ▸ ha)
    rw [refCounter_withCounter_ne w y f hne, ha]

end WithCounter

theorem Balanced.withCounter {refs' : List Address} {f : UInt16 → UInt16}
    (hb : Balanced w refs shares dying) (hlive : w.heap.refCounter y ≠ 0)
    (hlive' : f (w.heap.refCounter y) ≠ 0) (hknown : ∀ t ∈ refs', t ∈ w.heap.addresses)
    (hself : (f (w.heap.refCounter y)).toNat = (refs' ++ w.held).count y)
    (hother : ∀ a, a ≠ y → refs'.count a = refs.count a) :
    Balanced (w.withCounter y f) refs' shares dying := by
  obtain ⟨o, hf⟩ := find_of_live hlive
  have hy := refCounter_withCounter (f := f) hf
  have hzero : ∀ a, (w.withCounter y f).heap.refCounter a = 0 ↔ w.heap.refCounter a = 0 := by
    intro a
    by_cases ha : a = y
    · rw [ha, hy]
      exact ⟨fun h => absurd h hlive', fun h => absurd h hlive⟩
    · rw [refCounter_withCounter_ne w y f ha]
  constructor
  case addresses =>
    rw [addresses_withCounter]
    exact hb.addresses
  case slots =>
    rw [slots_withCounter]
    exact hb.slots
  case known =>
    intro t ht
    rw [slots_withCounter, List.append_assoc, List.mem_append] at ht
    rw [mem_addresses_withCounter]
    obtain ht | ht := ht
    · exact hknown t ht
    · exact hb.known t (by rw [List.append_assoc]; exact List.mem_append_right _ ht)
  case counter =>
    intro a ha
    rw [held_withCounter]
    by_cases he : a = y
    · rw [he, hy]
      exact hself
    · rw [refCounter_withCounter_ne w y f he] at ha ⊢
      rw [hb.counter a ha, List.count_append, List.count_append, hother a he]
  case unheld =>
    intro a ha
    rw [held_withCounter]
    exact hb.unheld a ((hzero a).mp ha)
  case manage =>
    rw [slots_withCounter]
    exact hb.manage
  case freed =>
    intro a ha
    rw [slots_withCounter, mem_addresses_withCounter]
    exact hb.freed a ha
  case gone =>
    intro a
    rw [hzero, mem_addresses_withCounter]
    exact hb.gone a
  case memberless =>
    intro a o' hf' ha
    obtain ⟨o, hfo, hm⟩ := find_members_withCounter hf'
    rw [hm]
    exact hb.memberless a o hfo ((hzero a).mp ha)
  case acyclic => exact acyclic_withCounter hb.acyclic
  case once => exact hb.once
  case unshifted => exact hb.unshifted
  case unbroken => exact hb.unbroken

def emptied (w : PtrState) (a : Address) : PtrState :=
  { w with heap := w.heap.modifyObject a fun o => { o with refCounter := 0, members := [] } }

section Emptied

theorem slots_emptied (hn : (w.heap.objects.map HeapObject.address).Nodup)
    (hf : w.heap.find y = some o) : w.heap.slots.Perm (o.members ++ (w.emptied y).heap.slots) := by
  obtain ⟨ho, rfl⟩ := find_mem hf
  have hperm := (members_perm hn ho).append_left w.heap.freePtrs
  have hsame : (w.heap.objects.map fun c => if c.address = o.address then
        { c with members := [] } else c).flatMap HeapObject.members =
      (w.emptied o.address).heap.objects.flatMap HeapObject.members := by
    rw [emptied, modifyObject, List.flatMap_map, List.flatMap_map]
    congr 1
    funext c
    split <;> rfl
  rw [hsame] at hperm
  exact hperm.trans (List.perm_append_comm_assoc _ _ _)

theorem find_emptied (hf : w.heap.find y = some o) :
    (w.emptied y).heap.find y = some { o with refCounter := 0, members := [] } :=
  find_modifyObject_self (fun _ => rfl) hf

theorem find_emptied_ne {a : Address} (hne : a ≠ y) :
    (w.emptied y).heap.find a = w.heap.find a :=
  find_modifyObject_ne (fun _ => rfl) hne

theorem refCounter_emptied (hf : w.heap.find y = some o) :
    (w.emptied y).heap.refCounter y = 0 :=
  refCounter_of_find (find_emptied hf)

theorem refCounter_emptied_ne {a : Address} (hne : a ≠ y) :
    (w.emptied y).heap.refCounter a = w.heap.refCounter a := by
  rw [refCounter, find_emptied_ne hne, refCounter]

theorem slots_emptied_sublist : (w.emptied y).heap.slots.Sublist w.heap.slots := by
  apply List.Sublist.append (List.Sublist.refl _)
  change ((w.heap.objects.map _).flatMap _).Sublist _
  induction w.heap.objects with
  | nil => exact List.Sublist.refl _
  | cons c rest ih =>
    rw [List.map_cons, List.flatMap_cons, List.flatMap_cons]
    apply List.Sublist.append _ ih
    split
    · exact List.nil_sublist _
    · exact List.Sublist.refl _

theorem shrinks_emptied (hf : w.heap.find y = some o) : Shrinks w (w.emptied y) where
  freePtrs := rfl
  released := rfl
  addresses := map_address_modifyObject fun _ => rfl
  slots := slots_emptied_sublist
  find a o' hf' := by
    by_cases he : a = y
    · subst he
      rw [find_emptied hf] at hf'
      cases hf'
      exact ⟨o, hf, .inr ⟨refCounter_emptied hf, rfl⟩⟩
    · rw [find_emptied_ne he] at hf'
      exact ⟨o', hf', .inl rfl⟩
  dead a ha := by
    by_cases he : a = y
    · subst he
      exact refCounter_emptied hf
    · rw [refCounter_emptied_ne he, ha]

theorem held_emptied (hn : (w.heap.objects.map HeapObject.address).Nodup)
    (hf : w.heap.find y = some o) : w.held.Perm
      (targets (o.members.filter fun s => s.address ∉ w.released) ++ (w.emptied y).held) := by
  have hperm := ((slots_emptied hn hf).filter fun s => decide (s.address ∉ w.released)).filterMap
    PtrSlot.target
  rw [List.filter_append, List.filterMap_append] at hperm
  exact hperm

theorem count_of_clean {slots : List PtrSlot} {a : Address}
    (hclean : ∀ s ∈ slots, s.address ∈ w.released → s.target ≠ some a) :
    (targets (slots.filter fun s => s.address ∉ w.released)).count a = (targets slots).count a := by
  induction slots with
  | nil => rfl
  | cons s rest ih =>
    have hrest := ih fun t ht => hclean t (List.mem_cons_of_mem _ ht)
    rw [targets_cons s rest, List.count_append, ← hrest]
    by_cases hs : s.address ∈ w.released
    · have hnone : (targets [s]).count a = 0 := by
        rw [List.count_eq_zero]
        intro ha
        obtain ⟨t, ht, htarget⟩ := List.mem_filterMap.mp ha
        obtain rfl := List.mem_singleton.mp ht
        exact hclean t List.mem_cons_self hs htarget
      rw [List.filter_cons_of_neg (by simpa using hs), hnone, Nat.zero_add]
    · rw [List.filter_cons_of_pos (by simpa using hs), targets_cons, List.count_append]

end Emptied

theorem Balanced.empty {out : List Address} (hb : Balanced w (y :: refs) shares dying)
    (hf : w.heap.find y = some o) (hone : (w.heap.refCounter y).toNat = 1)
    (hout : out.Perm (targets o.members))
    (hclean : ∀ s ∈ o.members, s.address ∈ w.released → ∀ t, s.target = some t →
      w.heap.refCounter t = 0) :
    Balanced (w.emptied y) (out ++ refs) (out ++ shares) (y :: dying) := by
  have hshrinks := shrinks_emptied hf
  have hheld := held_emptied hb.addresses hf
  have hslots : (targets w.heap.slots).Perm (targets o.members ++ targets (w.emptied y).heap.slots) := by
    rw [← targets_append]
    exact (slots_emptied hb.addresses hf).filterMap _
  have hlive : w.heap.refCounter y ≠ 0 := by
    intro hz
    rw [hz] at hone
    cases hone
  have hlast : y ∉ w.held := by
    have hcount := hb.counter y hlive
    rw [hone, List.cons_append, List.count_cons_self, List.count_append] at hcount
    exact List.count_eq_zero.mp (by omega)
  constructor
  case addresses =>
    rw [hshrinks.addresses]
    exact hb.addresses
  case slots => exact hb.slots.sublist (hshrinks.slots.map _)
  case known =>
    intro t ht
    rw [hshrinks.mem_addresses]
    apply hb.known t
    simp only [List.mem_append, hout.mem_iff] at ht
    simp only [List.mem_append, List.mem_cons, hslots.mem_iff]
    tauto
  case counter =>
    intro a ha
    have hne : a ≠ y := fun he => ha (by rw [he]; exact refCounter_emptied hf)
    rw [refCounter_emptied_ne hne] at ha ⊢
    have hmembers : (targets (o.members.filter fun s => s.address ∉ w.released)).count a =
        (targets o.members).count a :=
      count_of_clean fun s hs hr htarget => ha (hclean s hs hr a htarget)
    rw [hb.counter a ha, List.cons_append, List.count_cons_of_ne (Ne.symm hne), List.count_append,
      hheld.count_eq, List.count_append, hmembers, List.count_append, List.count_append,
      hout.count_eq]
    omega
  case unheld =>
    intro a ha hmem
    have hmem' := hshrinks.held.subset hmem
    by_cases he : a = y
    · exact hlast (he ▸ hmem')
    · rw [refCounter_emptied_ne he] at ha
      exact hb.unheld a ha hmem'
  case manage =>
    intro a
    have hcount := hb.manage a
    rw [List.count_append, hslots.count_eq, List.count_append] at hcount
    rw [List.count_append, List.count_append, hout.count_eq]
    exact hcount.trans (by omega)
  case freed =>
    intro a ha
    obtain ⟨hmem, hnot⟩ := hb.freed a ha
    refine ⟨hshrinks.mem_addresses.mpr hmem, ?_⟩
    simp only [List.mem_append, hslots.mem_iff] at hnot
    simp only [List.mem_append, hout.mem_iff]
    tauto
  case gone =>
    intro a
    rw [hshrinks.mem_addresses]
    by_cases he : a = y
    · rw [he, refCounter_emptied hf]
      have hknown := hb.known y (by simp)
      simp [hknown]
    · rw [refCounter_emptied_ne he, ← hb.gone a, List.mem_append, List.mem_cons, List.mem_append]
      change a ∈ w.heap.deleted ∨ a = y ∨ a ∈ dying ↔ a ∈ w.heap.deleted ∨ a ∈ dying
      tauto
  case once =>
    apply List.nodup_middle.mpr
    refine List.nodup_cons.mpr ⟨fun hgone => hlive ?_, hb.once⟩
    exact ((hb.gone y).mp hgone).2
  case memberless =>
    intro a o' hf' ha
    by_cases he : a = y
    · subst he
      rw [find_emptied hf] at hf'
      cases hf'
      rfl
    · rw [find_emptied_ne he] at hf'
      rw [refCounter_emptied_ne he] at ha
      exact hb.memberless a o' hf' ha
  case acyclic => exact hshrinks.acyclic hb.acyclic
  case unshifted => exact hb.unshifted
  case unbroken => exact hb.unbroken

theorem heap_resetShared (w : PtrState) (a : Address) : (w.resetShared a).heap = w.heap := by
  unfold resetShared
  simp only
  split <;> rfl

theorem released_resetShared (w : PtrState) (a : Address) :
    (w.resetShared a).released = w.released := by
  unfold resetShared
  simp only
  split <;> rfl

theorem Shrinks.of_heap {w' : PtrState} (hheap : w'.heap = w.heap)
    (hreleased : w'.released = w.released) : Shrinks w w' := by
  have h := Shrinks.refl w
  refine ⟨?_, hreleased, ?_, ?_, ?_, ?_⟩ <;> rw [hheap]
  exacts [h.find, h.dead]

theorem Balanced.resetShared (hb : Balanced w refs (y :: shares) dying) :
    Balanced (w.resetShared y) refs shares dying := by
  have hcount := hb.manage y
  rw [List.cons_append, List.count_cons_self] at hcount
  have hless : (w.manageCounter y - 1).toNat = (shares ++ targets w.heap.slots).count y := by
    have hle : (1 : UInt16) ≤ w.manageCounter y := by
      rw [UInt16.le_iff_toNat_le, hcount]
      exact Nat.le_add_left 1 _
    rw [UInt16.toNat_sub_of_le _ _ hle, hcount]
    rfl
  have hsound : w.touch y = w := touch_eq (hb.not_freed (by simp))
  have hsubset : ∀ t ∈ refs ++ shares ++ targets w.heap.slots, t ∈ w.heap.addresses := by
    intro t ht
    apply hb.known t
    simp only [List.mem_append, List.mem_cons] at ht ⊢
    tauto
  have hmanage : ∀ a, (Function.update w.manageCounter y (w.manageCounter y - 1) a).toNat =
      (shares ++ targets w.heap.slots).count a := by
    intro a
    by_cases he : a = y
    · subst he
      rw [Function.update_self, hless]
    · rw [Function.update_of_ne he, hb.manage a, List.cons_append,
        List.count_cons_of_ne (Ne.symm he)]
  have hfreed : ∀ a ∈ w.freedManagers, a ∈ w.heap.addresses ∧
      a ∉ shares ++ targets w.heap.slots := by
    intro a ha
    obtain ⟨hmem, hnot⟩ := hb.freed a ha
    exact ⟨hmem, fun h => hnot (List.mem_cons_of_mem _ h)⟩
  unfold PtrState.resetShared decrementManage
  rw [hsound]
  simp only [Function.update_self]
  split
  · next hzero =>
    refine { hb with known := hsubset, manage := hmanage, freed := ?_ }
    intro a ha
    obtain rfl | ha := List.mem_cons.mp ha
    · refine ⟨hb.known a (by simp), List.count_eq_zero.mp ?_⟩
      rw [← hless, hzero]
      rfl
    · exact hfreed a ha
  · exact { hb with known := hsubset, manage := hmanage, freed := hfreed }

end Steps

section Cascade
variable {w w₁ w₂ : PtrState} {refs shares dying : List Address} {y : Address} {fuel : ℕ}

/-- Below the object, no member that was `Reset` leads to an object that is still there. -/
def Clean (w : PtrState) (y : Address) : Prop :=
  ∀ a o, w.heap.Reaches y a → w.heap.find a = some o → ∀ s ∈ o.members,
    s.address ∈ w.released → ∀ t, s.target = some t → w.heap.refCounter t = 0

theorem Clean.shrinks (hc : Clean w y) (h : Shrinks w w₁) : Clean w₁ y := by
  intro a o₁ hr hf₁ s hs hreleased t ht
  obtain ⟨o, hf, hmem | ⟨-, hnil⟩⟩ := h.find a o₁ hf₁
  · rw [h.released] at hreleased
    exact h.dead t (hc a o (h.reaches hr) hf s (hmem ▸ hs) hreleased t ht)
  · rw [hnil] at hs
    cases hs

theorem Clean.edge {t : Address} (hc : Clean w y) (he : w.heap.Edge y t) : Clean w t :=
  fun a o hr => hc a o (.head he hr)

def live (w : PtrState) : Finset Address :=
  w.heap.addresses.filter fun a => w.heap.refCounter a ≠ 0

theorem Shrinks.live (h : Shrinks w w₁) : w₁.live ⊆ w.live := by
  intro a ha
  obtain ⟨hmem, hlive⟩ := Finset.mem_filter.mp ha
  exact Finset.mem_filter.mpr ⟨h.mem_addresses.mp hmem, fun hz => hlive (h.dead a hz)⟩

/-- What giving up the references `out` does. -/
structure LetsGo (w w' : PtrState) (out refs shares dying : List Address) : Prop where
  balanced : Balanced w' refs shares dying
  shrinks : Shrinks w w'
  below : ∀ a, w.heap.refCounter a ≠ 0 → w'.heap.refCounter a = 0 →
    ∃ t ∈ out, w.heap.Reaches t a
  kept : ∀ a ∈ refs, w.heap.refCounter a ≠ 0 → w'.heap.refCounter a ≠ 0

theorem LetsGo.same (hb : Balanced w refs shares dying) (out : List Address) :
    LetsGo w w out refs shares dying :=
  ⟨hb, .refl w, fun _ hlive hdead => absurd hdead hlive, fun _ _ hlive => hlive⟩

theorem LetsGo.trans {out₁ out₂ refs₁ shares₁ : List Address}
    (h₁ : LetsGo w w₁ out₁ refs₁ shares₁ dying) (h₂ : LetsGo w₁ w₂ out₂ refs shares dying)
    (hsub : refs ⊆ refs₁) : LetsGo w w₂ (out₁ ++ out₂) refs shares dying where
  balanced := h₂.balanced
  shrinks := h₁.shrinks.trans h₂.shrinks
  below := by
    intro a hlive hdead
    by_cases hmid : w₁.heap.refCounter a = 0
    · obtain ⟨t, ht, hr⟩ := h₁.below a hlive hmid
      exact ⟨t, List.mem_append_left _ ht, hr⟩
    · obtain ⟨t, ht, hr⟩ := h₂.below a hmid hdead
      exact ⟨t, List.mem_append_right _ ht, h₁.shrinks.reaches hr⟩
  kept a ha hlive := h₂.kept a ha (h₁.kept a (hsub ha) hlive)

structure ResetsSlot (fuel : ℕ) (reset : PtrState → PtrSlot → PtrState) : Prop where
  none : ∀ w s, s.target = none → reset w s = w
  some : ∀ w refs shares dying s y, s.target = some y → Balanced w (y :: refs) shares dying →
    y ∈ shares ++ targets w.heap.slots → Clean w y → w.live.card ≤ fuel →
    LetsGo w (reset w s) [y] refs shares dying

theorem LetsGo.resetShared (h : LetsGo w w₁ [y] refs (y :: shares) dying) :
    LetsGo w (w₁.resetShared y) [y] refs shares dying where
  balanced := h.balanced.resetShared
  shrinks := h.shrinks.trans (.of_heap (heap_resetShared w₁ y) (released_resetShared w₁ y))
  below := by
    rw [heap_resetShared]
    exact h.below
  kept := by
    rw [heap_resetShared]
    exact h.kept

theorem ResetsSlot.destroyAll {reset : PtrState → PtrSlot → PtrState}
    (hreset : ResetsSlot fuel reset) (slots : List PtrSlot)
    (hb : Balanced w (targets slots ++ refs) (targets slots ++ shares) dying)
    (hclean : ∀ t ∈ targets slots, Clean w t) (hcard : w.live.card ≤ fuel) :
    LetsGo w (slots.foldl (destroyMember reset) w) (targets slots) refs shares dying := by
  induction slots generalizing w with
  | nil => exact .same hb _
  | cons s rest ih =>
    rw [targets_cons] at hb hclean ⊢
    rw [List.foldl_cons]
    cases ht : s.target with
    | none =>
      have hnil : targets [s] = [] := by simp [targets, ht]
      rw [hnil, List.nil_append] at hb hclean ⊢
      simp only [destroyMember, hreset.none w s ht, ht, Option.elim_none]
      exact ih hb hclean hcard
    | some y =>
      have hone : targets [s] = [y] := by simp [targets, ht]
      rw [hone] at hb hclean ⊢
      have hgo : LetsGo w ((reset w s).resetShared y) [y] (targets rest ++ refs)
          (targets rest ++ shares) dying :=
        (hreset.some w _ (y :: (targets rest ++ shares)) _ s y ht hb (by simp)
          (hclean y (by simp)) hcard).resetShared
      simp only [destroyMember, ht, Option.elim_some]
      apply hgo.trans _ (List.subset_append_right _ _)
      apply ih hgo.balanced
      · exact fun t ht => (hclean t (by simp [ht])).shrinks hgo.shrinks
      · exact (Finset.card_le_card hgo.shrinks.live).trans hcard

theorem Balanced.logDeleted (hb : Balanced w refs shares (y :: dying)) :
    Balanced (w.logDeleted y) refs shares dying := by
  have hsame : (w.logDeleted y).heap.deleted ++ dying = w.heap.deleted ++ y :: dying := by
    simp [PtrState.logDeleted]
  refine { hb with gone := ?_, once := ?_ }
  · rw [hsame]
    exact hb.gone
  · rw [hsame]
    exact hb.once

theorem shrinks_logDeleted (w : PtrState) (a : Address) : Shrinks w (w.logDeleted a) :=
  have h := Shrinks.refl w
  ⟨rfl, rfl, rfl, h.slots, h.find, h.dead⟩

theorem Balanced.dropMembers_withCounter (hb : Balanced w refs shares dying)
    (hone : w.heap.refCounter y = 1) : (w.withCounter y (· - 1)).dropMembers y = w.emptied y := by
  have hobjects : (w.heap.modifyObject y fun o => { o with
        refCounter := o.refCounter - 1 }).modifyObject y (fun o => { o with members := [] }) =
      w.heap.modifyObject y fun o => { o with refCounter := 0, members := [] } := by
    unfold modifyObject
    simp only [List.map_map]
    congr 1
    apply List.map_congr_left
    intro c hc
    by_cases he : c.address = y
    · subst he
      have hcounter : c.refCounter = 1 := by
        rw [← refCounter_of_find (find_of_nodup hb.addresses hc), hone]
      simp [hcounter]
    · simp [he]
  rw [dropMembers, PtrState.withCounter, emptied]
  simp only [hobjects]

theorem Balanced.giveUp (hb : Balanced w refs shares dying) (ptrTypeIndex : ℕ) :
    w.giveUp ptrTypeIndex y = w.withCounter y (· - 1) := by
  rw [PtrState.giveUp, giveUp_of_acyclic hb.acyclic]
  rfl

theorem checkShift_eq {p : Address} (hshift : w.shift p = 0) : w.checkShift p = w := by
  simp [checkShift, hshift]

theorem reset_of_live {s : PtrSlot} (hb : Balanced w (y :: refs) shares dying)
    (ht : s.target = some y) (hy : y ∈ shares ++ targets w.heap.slots)
    (hlive : w.heap.refCounter y ≠ 0) :
    reset (fuel + 1) w s = if w.heap.refCounter y - 1 = 0
      then deleteObject (reset fuel) (w.withCounter y (· - 1)) y else w.withCounter y (· - 1) := by
  obtain ⟨o, hf⟩ := hb.find_of_refs
  have hshift : (w.withCounter y (· - 1)).checkShift s.address = w.withCounter y (· - 1) :=
    checkShift_eq (hb.unshifted s.address)
  rw [reset, ht]
  simp only [touch_eq (hb.not_freed hy), if_neg hlive, hb.giveUp, refCounter_withCounter hf, hshift]

theorem Balanced.last_not_mem (hb : Balanced w (y :: refs) shares dying)
    (hone : w.heap.refCounter y = 1) : y ∉ refs := by
  have hcount := hb.counter y (by rw [hone]; decide)
  rw [hone, List.cons_append, List.count_cons_self, List.count_append, UInt16.toNat_one] at hcount
  exact List.count_eq_zero.mp (by omega)

theorem deleteObject_spec {o : HeapObject} (hreset : ResetsSlot fuel (reset fuel))
    (hb : Balanced w (y :: refs) shares dying) (hf : w.heap.find y = some o)
    (hone : w.heap.refCounter y = 1) (hclean : Clean w y) (hcard : w.live.card ≤ fuel + 1) :
    LetsGo w (deleteObject (reset fuel) (w.withCounter y (· - 1)) y) [y] refs shares dying := by
  have hmembers : (((w.withCounter y (· - 1)).heap.find y).map HeapObject.members).getD [] =
      o.members := by
    rw [find_withCounter, hf]
    simp only [Option.map_some, Option.getD_some]
    split <;> rfl
  have hlive : w.heap.refCounter y ≠ 0 := by
    rw [hone]
    decide
  have hempty : Balanced (w.emptied y) (targets o.members.reverse ++ refs)
      (targets o.members.reverse ++ shares) (y :: dying) := by
    apply hb.empty hf (by rw [hone]; rfl) (targets_reverse_perm o.members)
    exact hclean y o .refl hf
  have hshrinks := shrinks_emptied hf
  have hgo := hreset.destroyAll o.members.reverse hempty (by
    intro t ht
    apply Clean.shrinks _ hshrinks
    apply hclean.edge
    rw [edge_of_find hf]
    exact (targets_reverse_perm o.members).subset ht) (by
    have hdies : y ∉ (w.emptied y).live := by simp [live, refCounter_emptied hf]
    have hwas : y ∈ w.live := Finset.mem_filter.mpr ⟨hb.known y (by simp), hlive⟩
    have hless : (w.emptied y).live.card < w.live.card :=
      Finset.card_lt_card ⟨hshrinks.live, fun h => hdies (h hwas)⟩
    omega)
  unfold deleteObject
  simp only [hmembers, hb.dropMembers_withCounter hone]
  refine ⟨hgo.balanced.logDeleted, (hshrinks.trans hgo.shrinks).trans (shrinks_logDeleted _ y),
    ?_, ?_⟩
  · intro a hlive hdead
    refine ⟨y, List.mem_singleton_self y, ?_⟩
    by_cases he : a = y
    · rw [he]
      exact .refl
    · obtain ⟨t, ht, hr⟩ := hgo.below a (by rwa [refCounter_emptied_ne he]) hdead
      apply ReflTransGen.head _ (hshrinks.reaches hr)
      rw [edge_of_find hf]
      exact (targets_reverse_perm o.members).subset ht
  · intro a ha hlive
    have hne : a ≠ y := fun he => hb.last_not_mem hone (he ▸ ha)
    apply hgo.kept a ha
    rwa [refCounter_emptied_ne hne]

/-- `Ptr::Reset`, by induction on the fuel: each deletion that leads to another leaves one object
less. -/
theorem resetsSlot_reset (fuel : ℕ) : ResetsSlot fuel (reset fuel) := by
  have hdead : ∀ {w : PtrState} {refs shares dying y}, Balanced w (y :: refs) shares dying →
      w.heap.refCounter y = 0 → LetsGo w w [y] refs shares dying := fun hb hzero =>
    .same (hb.of_dead hzero) _
  induction fuel with
  | zero =>
    refine ⟨fun _ _ _ => rfl, ?_⟩
    intro w refs shares dying s y _ hb _ _ hcard
    apply hdead hb
    by_contra hlive
    have hmem : y ∈ w.live := Finset.mem_filter.mpr ⟨hb.known y (by simp), hlive⟩
    rw [Finset.card_eq_zero.mp (Nat.le_zero.mp hcard)] at hmem
    cases hmem
  | succ fuel ih =>
    refine ⟨fun w s ht => by rw [reset, ht], ?_⟩
    intro w refs shares dying s y ht hb hy hclean hcard
    by_cases hzero : w.heap.refCounter y = 0
    · have hsame : reset (fuel + 1) w s = w := by
        simp [reset, ht, touch_eq (hb.not_freed hy), hzero]
      rw [hsame]
      exact hdead hb hzero
    · obtain ⟨o, hf⟩ := hb.find_of_refs
      have hcount := hb.counter y hzero
      rw [List.cons_append, List.count_cons_self] at hcount
      have hle : (1 : UInt16) ≤ w.heap.refCounter y := by
        rw [UInt16.le_iff_toNat_le, hcount]
        exact Nat.le_add_left 1 _
      have hless : (w.heap.refCounter y - 1).toNat = (refs ++ w.held).count y := by
        rw [UInt16.toNat_sub_of_le _ _ hle, hcount]
        rfl
      rw [reset_of_live hb ht hy hzero]
      split
      · next hlast =>
        have hone : w.heap.refCounter y = 1 := by
          rw [hlast, UInt16.toNat_zero] at hless
          rw [← hless] at hcount
          exact UInt16.toNat_inj.mp hcount
        exact deleteObject_spec ih hb hf hone hclean hcard
      · next hmore =>
        have hstays : ∀ a, w.heap.refCounter a ≠ 0 →
            (w.withCounter y (· - 1)).heap.refCounter a ≠ 0 := by
          intro a hlive
          by_cases he : a = y
          · rwa [he, refCounter_withCounter hf]
          · rwa [refCounter_withCounter_ne _ _ _ he]
        refine ⟨hb.withCounter hzero hmore ?_ hless ?_, shrinks_withCounter hzero, ?_, ?_⟩
        · exact fun t ht => hb.known t (by simp [ht])
        · exact fun a ha => (List.count_cons_of_ne (Ne.symm ha)).symm
        · exact fun a hlive hdead => absurd hdead (hstays a hlive)
        · exact fun a _ hlive => hstays a hlive

end Cascade
end PtrState
end AetherClient
