import AetherClient.PtrStores

set_option autoImplicit false

namespace AetherClient
open Relation

namespace PtrState
open Heap

/-- The object is held by another `Ptr` than `p`, which is not a member of an object or a member
of one that is held in this way. -/
inductive HeldWithout (w : PtrState) (p : Address) : Address → Prop
  | free {s : PtrSlot} {a : Address} (hs : s ∈ w.heap.freePtrs) (hp : s.address ≠ p)
      (hr : s.address ∉ w.released) (ht : s.target = some a) : HeldWithout w p a
  | member {x : Address} {o : HeapObject} {s : PtrSlot} {a : Address} (hx : HeldWithout w p x)
      (hf : w.heap.find x = some o) (hs : s ∈ o.members) (hp : s.address ≠ p)
      (hr : s.address ∉ w.released) (ht : s.target = some a) : HeldWithout w p a

/-- A `Ptr` that was `Reset` is let go only when its object is gone. -/
def Droppable (w : PtrState) (s : PtrSlot) : Prop :=
  s.address ∈ w.released → ∀ a ∈ s.target, w.heap.refCounter a = 0

def Survives (w : PtrState) (q p : Address) : Prop :=
  ∀ x, w.heap.IsMember q x → w.HeldWithout p x

def StaleMembers (w : PtrState) : Prop :=
  ∀ x o, w.heap.find x = some o → ∀ s ∈ o.members, s.address ∈ w.released →
    ∀ t, s.target = some t → w.heap.refCounter t = 0

section Reset
variable {w w₁ : PtrState} {refs shares dying : List Address} {p q a : Address} {s : PtrSlot}
  {o : HeapObject}

theorem member_mem_slots (hf : w.heap.find a = some o) (hs : s ∈ o.members) : s ∈ w.heap.slots :=
  List.mem_append_right _ (List.mem_flatMap.mpr ⟨o, (find_mem hf).1, hs⟩)

theorem member_eq (hn : (w.heap.slots.map PtrSlot.address).Nodup) (hs : w.slot p = some s)
    (hf : w.heap.find a = some o) {t : PtrSlot} (ht : t ∈ o.members) (hp : t.address = p) :
    t = s := by
  have hslot := slot_of_mem hn (member_mem_slots hf ht)
  rw [hp, hs] at hslot
  exact (Option.some.inj hslot).symm

theorem Balanced.of_dead_cons (hb : Balanced w refs shares dying) (ha : a ∈ w.heap.addresses)
    (hdead : w.heap.refCounter a = 0) : Balanced w (a :: refs) shares dying := by
  refine { hb with known := ?_, counter := ?_ }
  · intro t ht
    obtain rfl | ht := List.mem_cons.mp ht
    · exact ha
    · exact hb.known t ht
  · intro b hlive
    have hne : a ≠ b := fun he => hlive (he ▸ hdead)
    rw [hb.counter b hlive, List.cons_append, List.count_cons_of_ne hne]

theorem Balanced.release (hb : Balanced w refs shares dying) (hs : w.slot p = some s) :
    Balanced (w.release p) ((w.value s).refs ++ refs) shares dying := by
  have hheld := held_perm hb.slots hs
  have hothers : (w.release p).heldByOthers p = w.heldByOthers p := by
    unfold heldByOthers
    congr 1
    apply List.filter_congr
    intro t ht
    have hne : t.address ≠ p := by simpa using (List.mem_filter.mp ht).2
    simp [PtrState.release, hne]
  have hheld' : (w.release p).held.Perm (w.heldByOthers p) := by
    have hperm := held_perm (w := w.release p) hb.slots hs
    rw [hothers] at hperm
    have hnone : ((w.release p).value s).refs = [] := by
      simp [PtrValue.refs, value, PtrState.release, (slot_mem hs).2]
    rwa [hnone] at hperm
  refine { hb with known := ?_, counter := ?_, unheld := ?_ }
  · intro t ht
    apply hb.known t
    have hsub : t ∈ (w.value s).refs → t ∈ targets w.heap.slots := fun h =>
      (targets_perm hb.slots hs).mem_iff.mpr
        (List.mem_append_left _ ((w.value s).refs_subset h))
    simp only [List.mem_append] at ht ⊢
    change ((t ∈ (w.value s).refs ∨ t ∈ refs) ∨ t ∈ shares) ∨ t ∈ targets w.heap.slots at ht
    tauto
  · intro b hlive
    have hcount := hb.counter b hlive
    rw [List.count_append, hheld.count_eq, List.count_append] at hcount
    rw [List.count_append, List.count_append, hheld'.count_eq]
    exact hcount.trans (by omega)
  · intro b hdead hmem
    exact hb.unheld b hdead (hheld.mem_iff.mpr (List.mem_append_right _ (hheld'.mem_iff.mp hmem)))

theorem Balanced.clean (hb : Balanced w refs shares dying) (hstale : StaleMembers w)
    (hs : w.slot p = some s) (ht : s.target = some a) : Clean (w.release p) a := by
  intro x o hreach hf t htm hreleased b htarget
  by_cases hp : t.address = p
  · have hsame := member_eq hb.slots hs hf htm hp
    subst hsame
    have hedge : w.heap.Edge x a := (edge_of_find hf).mpr (List.mem_filterMap.mpr ⟨t, htm, ht⟩)
    exact absurd (TransGen.head' hedge hreach) (hb.acyclic x)
  · have hold : t.address ∈ w.released := (List.mem_cons.mp hreleased).resolve_left hp
    exact hstale x o hf t htm hold b htarget

theorem card_live_le (w : PtrState) : w.live.card ≤ w.heap.objects.length := by
  calc w.live.card ≤ w.heap.addresses.card := Finset.card_filter_le _ _
    _ ≤ (w.heap.objects.map HeapObject.address).length := List.toFinset_card_le _
    _ = w.heap.objects.length := List.length_map _

theorem Balanced.resetPtr (hb : Balanced w refs shares dying) (hstale : StaleMembers w)
    (hs : w.slot p = some s) (hdrop : Droppable w s) :
    LetsGo (w.release p) (w.resetPtr s) s.target.toList refs shares dying := by
  have hresets := resetsSlot_reset w.heap.objects.length
  have hrelease := hb.release hs
  obtain ⟨hmem, rfl⟩ := slot_mem hs
  unfold PtrState.resetPtr
  cases ht : s.target with
  | none =>
    rw [hresets.none _ _ ht]
    have hnil : (w.value s).refs = [] := by simp [PtrValue.refs, value, ht]
    rw [hnil] at hrelease
    exact .same hrelease _
  | some a =>
    have hshare : a ∈ shares ++ targets w.heap.slots :=
      List.mem_append_right _ (mem_targets hmem ht)
    have hknown : a ∈ w.heap.addresses := hb.known a (by simp [mem_targets hmem ht])
    have hpending : Balanced (w.release s.address) (a :: refs) shares dying := by
      by_cases hr : s.address ∈ w.released
      · have hnil : (w.value s).refs = [] := by simp [PtrValue.refs, value, hr]
        rw [hnil] at hrelease
        exact hrelease.of_dead_cons hknown (hdrop hr a ht)
      · have hone : (w.value s).refs = [a] := by simp [PtrValue.refs, value, hr, ht]
        rwa [hone] at hrelease
    exact hresets.some _ refs shares dying s a ht hpending hshare (hb.clean hstale hs ht)
      (card_live_le (w.release s.address))

theorem Shrinks.slot (h : Shrinks w w₁) (hn : (w₁.heap.slots.map PtrSlot.address).Nodup)
    (hs : w.slot q = some s) (hkept : ∀ x o, w.heap.find x = some o → s ∈ o.members →
      w₁.heap.refCounter x ≠ 0) (haddr : (w.heap.objects.map HeapObject.address).Nodup) :
    w₁.slot q = some s := by
  obtain ⟨hmem, rfl⟩ := slot_mem hs
  apply slot_of_mem hn
  obtain hfree | hmember := List.mem_append.mp hmem
  · apply List.mem_append_left
    rw [h.freePtrs]
    exact hfree
  · obtain ⟨o, ho, hso⟩ := List.mem_flatMap.mp hmember
    have hf := find_of_nodup haddr ho
    obtain ⟨o₁, hf₁, hsame⟩ := h.members hf (hkept _ o hf hso)
    exact member_mem_slots hf₁ (hsame ▸ hso)

theorem HeldWithout.live (hheld : w.HeldWithout p a) (h : Shrinks (w.release p) w₁)
    (hb : Balanced w₁ refs shares dying) : w₁.heap.refCounter a ≠ 0 := by
  have hreleased : ∀ {s : PtrSlot}, s.address ≠ p → s.address ∉ w.released →
      s.address ∉ w₁.released := by
    intro s hp hr hmem
    rw [h.released] at hmem
    exact (List.mem_cons.mp hmem).elim hp hr
  induction hheld with
  | free hs hp hr ht =>
    apply hb.live_of_held
    apply mem_held (List.mem_append_left _ _) (hreleased hp hr) ht
    rw [h.freePtrs]
    exact hs
  | member hx hf hs hp hr ht ih =>
    obtain ⟨o₁, hf₁, hsame⟩ := h.members hf ih
    apply hb.live_of_held
    exact mem_held (member_mem_slots hf₁ (hsame ▸ hs)) (hreleased hp hr) ht

theorem Balanced.slot_resetPtr (hb : Balanced w refs shares dying) (hstale : StaleMembers w)
    (hs : w.slot p = some s) (hdrop : Droppable w s) : (w.resetPtr s).slot p = some s := by
  have hgo := hb.resetPtr hstale hs hdrop
  apply hgo.shrinks.slot hgo.balanced.slots hs _ hb.addresses
  intro x o hf hso hdead
  have hlive : w.heap.refCounter x ≠ 0 := by
    intro hzero
    rw [hb.memberless x o hf hzero] at hso
    cases hso
  obtain ⟨t, ht, hreach⟩ := hgo.below x hlive hdead
  have hedge : w.heap.Edge x t :=
    (edge_of_find hf).mpr (List.mem_filterMap.mpr ⟨s, hso, Option.mem_toList.mp ht⟩)
  exact hb.acyclic x (TransGen.head' hedge hreach)

theorem slot_put_ne {v : PtrValue} (hne : q ≠ p) : (w.put p v).slot q = w.slot q := by
  change (w.heap.setTarget p v.target).slots.find? _ = _
  rw [slots_setTarget, List.find?_map]
  have hsame : (fun t : PtrSlot => decide (t.address = q)) ∘ PtrSlot.setAt p v.target =
      fun t => decide (t.address = q) := by
    funext t
    simp only [Function.comp, address_setAt]
  rw [hsame]
  change (w.slot q).map _ = w.slot q
  cases hs : w.slot q with
  | none => rfl
  | some t =>
    have hp : t.address ≠ p := by
      rw [(slot_mem hs).2]
      exact hne
    rw [Option.map_some, PtrSlot.setAt, if_neg hp]

theorem isMember_put {v : PtrValue} {x : Address} (h : (w.put p v).heap.IsMember q x) :
    w.heap.IsMember q x := by
  obtain ⟨o, hf, hq⟩ := h
  have hf' : (w.heap.setTarget p v.target).find x = some o := hf
  rw [find_setTarget] at hf'
  obtain ⟨c, hc, rfl⟩ := Option.map_eq_some_iff.mp hf'
  refine ⟨c, hc, ?_⟩
  obtain ⟨t, ht, rfl⟩ := List.mem_map.mp hq
  obtain ⟨t', ht', rfl⟩ := List.mem_map.mp ht
  rw [address_setAt]
  exact List.mem_map_of_mem ht'

theorem Shrinks.isMember {x : Address} (h : Shrinks w w₁) (hm : w₁.heap.IsMember q x) :
    w.heap.IsMember q x := by
  obtain ⟨o₁, hf₁, hq⟩ := hm
  obtain ⟨o, hf, hsame | ⟨-, hnil⟩⟩ := h.find x o₁ hf₁
  · exact ⟨o, hf, hsame ▸ hq⟩
  · rw [hnil] at hq
    cases hq

theorem edge_put_empty {x y : Address} (he : (w.put p {}).heap.Edge x y) : w.heap.Edge x y := by
  obtain he | ⟨-, hnone⟩ := edge_setTarget he
  · exact he
  · cases hnone

def StaleElsewhere (w : PtrState) (p : Address) : Prop :=
  ∀ x o, w.heap.find x = some o → ∀ s ∈ o.members, s.address ≠ p → s.address ∈ w.released →
    ∀ t, s.target = some t → w.heap.refCounter t = 0

theorem StaleMembers.elsewhere (hstale : StaleMembers w) (p : Address) : StaleElsewhere w p :=
  fun x o hf s hs _ => hstale x o hf s hs

theorem StaleMembers.release (hstale : StaleMembers w) (h : Shrinks (w.release p) w₁) :
    StaleElsewhere w₁ p := by
  intro x o₁ hf₁ s hs hne hr t ht
  rw [h.released] at hr
  have hold : s.address ∈ w.released := (List.mem_cons.mp hr).resolve_left hne
  obtain ⟨o, hf, hsame | ⟨-, hnil⟩⟩ := h.find x o₁ hf₁
  · exact h.dead t (hstale x o hf s (hsame ▸ hs) hold t ht)
  · rw [hnil] at hs
    cases hs

theorem StaleElsewhere.put {v : PtrValue} (hstale : StaleElsewhere w p)
    (hv : v.released = true → (∀ t, v.target = some t → w.heap.refCounter t = 0) ∨
      ∀ x, ¬w.heap.IsMember p x) : StaleMembers (w.put p v) := by
  intro x o hf t ht hreleased b hb
  rw [refCounter_put]
  have hf' : (w.heap.setTarget p v.target).find x = some o := hf
  rw [find_setTarget] at hf'
  obtain ⟨c, hc, rfl⟩ := Option.map_eq_some_iff.mp hf'
  obtain ⟨t, htc, rfl⟩ := List.mem_map.mp ht
  rw [address_setAt] at hreleased
  by_cases hp : t.address = p
  · rw [PtrSlot.setAt, if_pos hp] at hb
    rw [hp, released_put_self] at hreleased
    obtain hdead | hnot := hv hreleased
    · exact hdead b hb
    · exact absurd ⟨c, hc, hp ▸ List.mem_map_of_mem htc⟩ (hnot x)
  · rw [PtrSlot.setAt, if_neg hp] at hb
    exact hstale x c hc t htc hp ((released_put hp).mp hreleased) b hb

end Reset

section LetGo
variable {w w' : PtrState} {refs shares : List Address} {p q a : Address} {s : PtrSlot}

structure Awaits (w w' : PtrState) (p : Address) (s : PtrSlot) (refs shares : List Address) :
    Prop where
  balanced : Balanced w' refs shares []
  stale : StaleMembers w'
  slot : w'.slot p = some { s with target := none }
  edge : ∀ a b, w'.heap.Edge a b → w.heap.Edge a b
  member : ∀ q x, w'.heap.IsMember q x → w.heap.IsMember q x

structure Vacated (w w' : PtrState) (p : Address) (s : PtrSlot) (refs shares : List Address) :
    Prop extends Awaits w w' p s refs shares where
  released : ∀ q, q ≠ p → (q ∈ w'.released ↔ q ∈ w.released)
  survives : ∀ q t, q ≠ p → w.slot q = some t → w.Survives q p → w'.slot q = some t
  dead : ∀ a, w.heap.refCounter a = 0 → w'.heap.refCounter a = 0
  slots : ∀ a, (targets w'.heap.slots).count a ≤ (targets w.heap.slots).count a
  kept : ∀ a ∈ refs, w.heap.refCounter a ≠ 0 → w'.heap.refCounter a ≠ 0

theorem heap_letGo (w : PtrState) (s : PtrSlot) :
    (w.letGo s).heap = ((w.resetPtr s).put s.address {}).heap := by
  unfold letGo
  cases s.target with
  | none => rfl
  | some a => exact heap_resetShared _ a

theorem released_letGo (w : PtrState) (s : PtrSlot) :
    (w.letGo s).released = ((w.resetPtr s).put s.address {}).released := by
  unfold letGo
  cases s.target with
  | none => rfl
  | some a => exact released_resetShared _ a

theorem Balanced.put_resetPtr (hb : Balanced w refs shares []) (hstale : StaleMembers w)
    (hs : w.slot p = some s) (hdrop : Droppable w s) :
    Balanced ((w.resetPtr s).put p {}) refs (s.target.toList ++ shares) [] := by
  have hgo := hb.resetPtr hstale hs hdrop
  have hmine : s.address ∈ (w.resetPtr s).released := by
    rw [hgo.shrinks.released, (slot_mem hs).2]
    exact List.mem_cons_self
  have hput : Balanced ((w.resetPtr s).put p {}) (((w.resetPtr s).value s).refs ++ refs)
      (((w.resetPtr s).value s).shares ++ shares) [] :=
    Balanced.put hgo.balanced (hb.slot_resetPtr hstale hs hdrop) rfl
      (fun t ht => absurd ht List.not_mem_nil) nofun
  have hnone : ((w.resetPtr s).value s).refs = [] := by simp [PtrValue.refs, value, hmine]
  rwa [hnone] at hput

theorem Balanced.count_targets_put_empty (hb : Balanced w refs shares []) (hs : w.slot p = some s)
    (a : Address) :
    (targets (w.put p {}).heap.slots).count a ≤ (targets w.heap.slots).count a := by
  have hafter := targets_perm (slots_put_nodup (v := {}) hb.slots) (slot_put hs)
  rw [value_put hs, others_put] at hafter
  rw [hafter.count_eq, (targets_perm hb.slots hs).count_eq, List.count_append, List.count_append]
  exact Nat.add_le_add_right (Nat.zero_le _) _

theorem Balanced.letGo (hb : Balanced w refs shares []) (hstale : StaleMembers w)
    (hs : w.slot p = some s) (hdrop : Droppable w s) :
    Vacated w (w.letGo s) p s refs shares := by
  have hgo := hb.resetPtr hstale hs hdrop
  have hslot := hb.slot_resetPtr hstale hs hdrop
  have hempty := hb.put_resetPtr hstale hs hdrop
  obtain ⟨-, hp⟩ := slot_mem hs
  have hheap := heap_letGo w s
  have hreleased := released_letGo w s
  rw [hp] at hheap hreleased
  constructor
  case toAwaits =>
    constructor
    case balanced =>
      unfold PtrState.letGo
      rw [hp]
      cases ht : s.target with
      | none =>
        rw [ht] at hempty
        exact hempty
      | some a =>
        rw [ht] at hempty
        exact hempty.resetShared
    case stale =>
      rw [StaleMembers, hheap, hreleased]
      exact (hstale.release hgo.shrinks).put nofun
    case slot =>
      rw [PtrState.slot, hheap]
      exact slot_put hslot
    case edge =>
      intro a b he
      rw [hheap] at he
      exact hgo.shrinks.edge (edge_put_empty he)
    case member =>
      intro q x hm
      rw [hheap] at hm
      exact hgo.shrinks.isMember (isMember_put hm)
  case released =>
    intro q hne
    rw [hreleased, released_put hne, hgo.shrinks.released]
    simp [PtrState.release, hne]
  case survives =>
    intro q t hne hq hsurvives
    rw [PtrState.slot, hheap]
    change ((w.resetPtr s).put p {}).slot q = _
    rw [slot_put_ne hne]
    apply hgo.shrinks.slot hgo.balanced.slots hq _ hb.addresses
    intro x o hf ht
    apply (hsurvives x ⟨o, hf, _⟩).live hgo.shrinks hgo.balanced
    rw [← (slot_mem hq).2]
    exact List.mem_map_of_mem ht
  case dead =>
    intro a ha
    rw [hheap, refCounter_put]
    exact hgo.shrinks.dead a ha
  case slots =>
    intro a
    rw [hheap]
    exact (hgo.balanced.count_targets_put_empty hslot a).trans
      ((hgo.shrinks.slots.filterMap _).count_le a)
  case kept =>
    intro a ha hlive
    rw [hheap, refCounter_put]
    exact hgo.kept a ha hlive

theorem Vacated.room {target : Option Address} (h : Vacated w w' p s [] [])
    (hb : Balanced w [] [] []) (hroom : w.Room target) : w'.Room target := by
  intro a ha
  have hmanage : (w'.manageCounter a).toNat < 65535 := by
    have hless := (hroom a ha).2
    rw [hb.manage a] at hless
    rw [h.balanced.manage a]
    exact Nat.lt_of_le_of_lt (h.slots a) hless
  refine ⟨?_, hmanage⟩
  by_cases hzero : w'.heap.refCounter a = 0
  · rw [hzero]
    decide
  · rw [h.balanced.counter a hzero]
    rw [h.balanced.manage a] at hmanage
    exact Nat.lt_of_le_of_lt ((List.filter_sublist.filterMap _).count_le a) hmanage

theorem Awaits.reaches {b : Address} (h : Awaits w w' p s refs shares)
    (hr : w'.heap.Reaches a b) : w.heap.Reaches a b :=
  ReflTransGen.lift id (fun _ _ he => h.edge _ _ he) _ _ hr

end LetGo

end PtrState
end AetherClient
