import AetherClient.PtrLetGo

set_option autoImplicit false

namespace AetherClient
open Relation

namespace PtrState
open Heap Runs

/-- How many `Ptr`s hold the object. A `Ptr` that was moved from or `Reset` holds nothing. -/
def holders (w : PtrState) (a : Address) : ℕ :=
  w.heap.slots.countP fun s => s.target = some a ∧ s.address ∉ w.released

structure CountsExact (w : PtrState) : Prop where
  counter : ∀ o ∈ w.heap.objects, o.address ∉ w.heap.deleted →
    o.refCounter.toNat = w.holders o.address
  deleted : ∀ o ∈ w.heap.objects, o.address ∈ w.heap.deleted ↔ w.holders o.address = 0
  once : w.heap.deleted.Nodup

def Copyable (w : PtrState) (s : PtrSlot) : Prop := s.address ∉ w.released ∧ w.Room s.target

/-- A value of a `Ptr` that was `Reset` is not written into a member while its object is there. -/
def Movable (w : PtrState) (s : PtrSlot) (p : Address) : Prop :=
  Droppable w s ∨ ∀ x, ¬w.heap.IsMember p x

def Prudent (w : PtrState) : PtrEvent → Prop
  | .create _ _ | .construct _ _ _ | .move _ _ _ => True
  | .copy _ _ q => ∀ s ∈ w.slot q, Copyable w s
  | .cast _ _ distance q => distance = 0 ∧ ∀ s ∈ w.slot q, Copyable w s
  | .moveCast _ _ distance _ => distance = 0
  | .assignNew p _ => ∀ d ∈ w.slot p, Droppable w d
  | .assign p q => p ≠ q → (∀ d ∈ w.slot p, Droppable w d) ∧
      (∀ s ∈ w.slot q, Copyable w s) ∧ w.Survives q p
  | .assignCast p distance q => distance = 0 ∧ (∀ d ∈ w.slot p, Droppable w d) ∧
      ∀ s ∈ w.slot q, Copyable w s
  | .assignMove p q => p ≠ q → (∀ d ∈ w.slot p, Droppable w d) ∧
      (∀ s ∈ w.slot q, Movable w s p) ∧ w.Survives q p
  | .assignMoveCast p distance q => distance = 0 ∧ (∀ d ∈ w.slot p, Droppable w d) ∧
      ∀ s ∈ w.slot q, Movable w s p
  | .reset p => ∀ s ∈ w.slot p, Droppable w s ∧
      ∀ x, w.heap.IsMember p x → ∀ a ∈ s.target, (w.heap.refCounter a).toNat ≤ 1
  | .destroy p => ∀ s ∈ w.slot p, Droppable w s

def NoCycle (w : PtrState) : PtrEvent → Prop
  | .assign p q | .assignCast p _ q | .assignMove p q | .assignMoveCast p _ q =>
    p ≠ q → ∀ s ∈ w.slot q, ∀ x, w.heap.IsMember p x → ∀ t ∈ s.target, ¬w.heap.Reaches t x
  | _ => True

structure Inv (w : PtrState) : Prop where
  balanced : Balanced w [] [] []
  stale : StaleMembers w

theorem inv_initial : Inv {} where
  balanced := by
    refine ⟨List.nodup_nil, List.nodup_nil, ?_, ?_, ?_, ?_, ?_, ?_, List.nodup_nil, ?_, ?_,
      fun _ => rfl, rfl⟩
    · exact fun _ h => absurd h List.not_mem_nil
    · exact fun _ h => absurd rfl h
    · exact fun _ _ => List.not_mem_nil
    · exact fun _ => rfl
    · exact fun _ h => absurd h List.not_mem_nil
    · exact fun _ => ⟨fun h => absurd h List.not_mem_nil, fun h => by cases h.1⟩
    · exact fun _ _ h => by cases h
    · intro a ha
      obtain ⟨b, hb, -⟩ := TransGen.head'_iff.mp ha
      cases hb
  stale := fun _ _ h => by cases h

section Operations
variable {w : PtrState} {p q a : Address} {s d : PtrSlot} {v : PtrValue} {typeIndex : ℕ}

theorem Inv.defined (h : Inv w) : w.defined = some w := by
  rw [PtrState.defined, h.balanced.unbroken]
  rfl

theorem cast_zero (v : PtrValue) : v.cast 0 = v := by
  rw [PtrValue.cast, Int.add_zero]

theorem Inv.live (h : Inv w) (hs : w.slot q = some s) :
    ∀ t ∈ (w.value s).refs, w.heap.refCounter t ≠ 0 := by
  intro t ht
  apply h.balanced.live_of_held
  exact (held_perm h.balanced.slots hs).mem_iff.mpr (List.mem_append_left _ ht)

theorem inv_newPtr (hb : Balanced w v.refs v.shares []) (hstale : StaleMembers w)
    (hfresh : w.Fresh [p]) (hshift : v.shift = 0) (hlive : ∀ t ∈ v.refs, w.heap.refCounter t ≠ 0) :
    Inv (w.newPtr p typeIndex v) where
  balanced := by
    apply Balanced.newPtr _ hfresh hshift hlive
    rwa [List.append_nil, List.append_nil]
  stale := by
    have hstale' : StaleMembers (w.addPtr p typeIndex) := hstale
    apply (hstale'.elsewhere p).put
    intro _
    right
    rintro x ⟨o, hf, hp⟩
    obtain ⟨t, ht, rfl⟩ := List.mem_map.mp hp
    exact hfresh.2 _ (List.mem_singleton_self _) (List.mem_map_of_mem (member_mem_slots hf ht))

theorem Awaits.inv {w' : PtrState} (h : Awaits w w' p d v.refs v.shares) (hshift : v.shift = 0)
    (hlive : ∀ t ∈ v.refs, w'.heap.refCounter t ≠ 0)
    (hback : ∀ x t, w.heap.IsMember p x → v.target = some t → ¬w.heap.Reaches t x)
    (hv : v.released = true → (∀ t, v.target = some t → w'.heap.refCounter t = 0) ∨
      ∀ x, ¬w'.heap.IsMember p x) : Inv (w'.put p v) where
  balanced := by
    have hb : Balanced w' (v.refs ++ []) (v.shares ++ []) [] := by
      rw [List.append_nil, List.append_nil]
      exact h.balanced
    have hput := hb.put h.slot hshift hlive fun x t hm ht hr =>
      hback x t (h.member p x hm) ht (h.reaches hr)
    simpa [PtrValue.refs, PtrValue.shares, PtrState.value] using hput
  stale := (h.stale.elsewhere p).put hv

theorem StaleMembers.shrinks {w₁ : PtrState} (hstale : StaleMembers w) (h : Shrinks w w₁) :
    StaleMembers w₁ := by
  intro x o₁ hf₁ s hs hr t ht
  rw [h.released] at hr
  obtain ⟨o, hf, hsame | ⟨-, hnil⟩⟩ := h.find x o₁ hf₁
  · exact h.dead t (hstale x o hf s (hsame ▸ hs) hr t ht)
  · rw [hnil] at hs
    cases hs

theorem Inv.take (h : Inv w) (hs : w.slot q = some s) :
    Balanced (w.put q {}) (w.value s).refs (w.value s).shares [] ∧ StaleMembers (w.put q {}) := by
  refine ⟨?_, (h.stale.elsewhere q).put nofun⟩
  have hput : Balanced (w.put q {}) ((w.value s).refs ++ []) ((w.value s).shares ++ []) [] :=
    Balanced.put h.balanced hs rfl (fun t ht => absurd ht List.not_mem_nil) nofun
  rwa [List.append_nil, List.append_nil] at hput

theorem fresh_of_slots {w₁ : PtrState} {ps : List Address} (hfresh : w.Fresh ps)
    (hsame : w₁.heap.slots.map PtrSlot.address = w.heap.slots.map PtrSlot.address) :
    w₁.Fresh ps := by
  rw [Fresh, hsame]
  exact hfresh

theorem addresses_slots_put : (w.put p v).heap.slots.map PtrSlot.address =
    w.heap.slots.map PtrSlot.address := by
  change (w.heap.setTarget p v.target).slots.map PtrSlot.address = _
  rw [slots_setTarget, List.map_map]
  apply List.map_congr_left
  exact fun t _ => address_setAt t

theorem Inv.acquire (h : Inv w) (hs : w.slot q = some s) (hcopy : Copyable w s) :
    Balanced (w.acquire s.target) (w.value s).refs (w.value s).shares [] ∧
      Shrinks w (w.acquire s.target) ∧
      ∀ t ∈ (w.value s).refs, (w.acquire s.target).heap.refCounter t ≠ 0 := by
  obtain ⟨hmem, -⟩ := slot_mem hs
  have hlive := h.live hs
  refine ⟨?_, ?_, fun t ht => refCounter_acquire hcopy.2 (hlive t ht)⟩
  · have hb := h.balanced.acquire hmem hcopy.1 hcopy.2
    rwa [List.append_nil, List.append_nil] at hb
  · apply shrinks_acquire
    intro a ha
    exact h.balanced.live_of_held (mem_held hmem hcopy.1 ha)

theorem Inv.create (h : Inv w) (hfresh : w.Fresh [p]) : Inv (w.newPtr p typeIndex {}) :=
  inv_newPtr h.balanced h.stale hfresh rfl fun _ ht => absurd ht List.not_mem_nil

theorem Inv.copy (h : Inv w) (hs : w.slot q = some s) (hfresh : w.Fresh [p])
    (hcopy : Copyable w s) : Inv ((w.acquire s.target).newPtr p typeIndex (w.value s)) := by
  obtain ⟨hb, hshrinks, hlive⟩ := h.acquire hs hcopy
  apply inv_newPtr hb (h.stale.shrinks hshrinks) _ (h.balanced.unshifted _) hlive
  exact fresh_of_slots hfresh (by rw [slots_acquire])

theorem Inv.move (h : Inv w) (hs : w.slot q = some s) (hfresh : w.Fresh [p]) :
    Inv ((w.put q {}).newPtr p typeIndex (w.value s)) := by
  obtain ⟨hb, hstale⟩ := h.take hs
  apply inv_newPtr hb hstale _ (h.balanced.unshifted _)
  · intro t ht
    rw [refCounter_put]
    exact h.live hs t ht
  · exact fresh_of_slots hfresh addresses_slots_put

theorem Inv.passOn (h : Inv w) (hs : w.slot q = some s) : w.passOn s.target = w := by
  apply passOn_eq
  intro a ha
  apply h.balanced.not_freed
  exact mem_targets (slot_mem hs).1 ha

theorem Awaits.acquire {w' : PtrState} (h : Awaits w w' p d [] []) (hs : w'.slot q = some s)
    (hcopy : Copyable w' s) :
    Awaits w (w'.acquire s.target) p d (w'.value s).refs (w'.value s).shares := by
  have hinv : Inv w' := ⟨h.balanced, h.stale⟩
  obtain ⟨hb, hshrinks, -⟩ := hinv.acquire hs hcopy
  constructor
  case balanced => exact hb
  case stale => exact h.stale.shrinks hshrinks
  case slot =>
    rw [PtrState.slot, slots_acquire]
    exact h.slot
  case edge => exact fun a b he => h.edge a b (hshrinks.edge he)
  case member => exact fun q x hm => h.member q x (hshrinks.isMember hm)

theorem Awaits.take {w' : PtrState} (h : Awaits w w' p d [] []) (hs : w'.slot q = some s)
    (hne : p ≠ q) : Awaits w (w'.put q {}) p d (w'.value s).refs (w'.value s).shares := by
  have hinv : Inv w' := ⟨h.balanced, h.stale⟩
  obtain ⟨hb, hstale⟩ := hinv.take hs
  constructor
  case balanced => exact hb
  case stale => exact hstale
  case slot =>
    rw [slot_put_ne hne]
    exact h.slot
  case edge => exact fun a b he => h.edge a b (edge_put_empty he)
  case member => exact fun r x hm => h.member r x (isMember_put hm)

theorem onPtr_eq {w₁ : PtrState} (hp : w.slot p = some d) (h : Inv w₁) :
    (w.onPtr p fun _ => w₁) = some w₁ := by
  rw [onPtr, hp]
  exact h.defined

theorem reaches_put_empty {b : Address} (h : (w.put q {}).heap.Reaches a b) :
    w.heap.Reaches a b :=
  ReflTransGen.lift id (fun _ _ he => edge_put_empty he) _ _ h

section Assignments
variable (h : Inv w) (hd : w.slot p = some d) (hs : w.slot q = some s) (hne : p ≠ q)

theorem onPtrs_eq {f : PtrSlot → PtrSlot → Option PtrState} (hd : w.slot p = some d)
    (hs : w.slot q = some s) (hne : p ≠ q) : w.onPtrs p q f = f d s := by
  rw [onPtrs, hd, hs]
  exact if_neg hne

variable (hdrop : Droppable w d)
  (hback : ∀ x, w.heap.IsMember p x → ∀ t ∈ s.target, ¬w.heap.Reaches t x)
include h hd hs hne hdrop hback

theorem Inv.assign (hcopy : Copyable w s) (hsurvives : w.Survives q p) :
    ∃ w', w.step (.assign p q) = some w' ∧ Inv w' := by
  have hv := h.balanced.letGo h.stale hd hdrop
  have hq := hv.survives q s hne.symm hs hsurvives
  have haddr := (slot_mem hs).2
  have hcopy' : Copyable (w.letGo d) s := by
    rw [Copyable, haddr, hv.released q hne.symm, ← haddr]
    exact ⟨hcopy.1, hv.room h.balanced hcopy.2⟩
  have hinv : Inv (w.letGo d) := ⟨hv.balanced, hv.stale⟩
  have hdone : Inv (((w.letGo d).acquire s.target).put p ((w.letGo d).value s)) := by
    apply (hv.toAwaits.acquire hq hcopy').inv (hv.balanced.unshifted _)
      (hinv.acquire hq hcopy').2.2 fun x t hm ht => hback x hm t ht
    exact fun hr => absurd (of_decide_eq_true hr) hcopy'.1
  refine ⟨_, ?_, hdone⟩
  rw [PtrState.step, onPtrs_eq hd hs hne]
  simp only [hq, Option.bind_some]
  exact onPtr_eq hv.slot hdone

theorem Inv.assignMove (hmove : Movable w s p) (hsurvives : w.Survives q p) :
    ∃ w', w.step (.assignMove p q) = some w' ∧ Inv w' := by
  have hv := h.balanced.letGo h.stale hd hdrop
  have hq := hv.survives q s hne.symm hs hsurvives
  have haddr := (slot_mem hs).2
  have hinv : Inv (w.letGo d) := ⟨hv.balanced, hv.stale⟩
  have hawaits := hv.toAwaits.take hq hne
  have hdone : Inv (((w.letGo d).put q {}).put p ((w.letGo d).value s)) := by
    apply hawaits.inv (hv.balanced.unshifted _) _ fun x t hm ht => hback x hm t ht
    · intro hr
      have hold : s.address ∈ w.released := by
        rw [haddr, ← hv.released q hne.symm, ← haddr]
        exact of_decide_eq_true hr
      apply hmove.imp _ fun hnot x hm => hnot x (hawaits.member p x hm)
      intro hdropped t ht
      rw [refCounter_put]
      exact hv.dead t (hdropped hold t ht)
    · intro t ht
      rw [refCounter_put]
      exact hinv.live hq t ht
  refine ⟨_, ?_, hdone⟩
  rw [PtrState.step, onPtrs_eq hd hs hne]
  simp only [hq, Option.bind_some]
  exact onPtr_eq hv.slot hdone

theorem Inv.assignCast (hcopy : Copyable w s) :
    ∃ w', w.step (.assignCast p 0 q) = some w' ∧ Inv w' := by
  obtain ⟨hb, hshrinks, hlive⟩ := h.acquire hs hcopy
  have hd' : (w.acquire s.target).slot p = some d := by
    rw [PtrState.slot, slots_acquire]
    exact hd
  have hdrop' : Droppable (w.acquire s.target) d := by
    intro hr a ha
    rw [hshrinks.released] at hr
    exact hshrinks.dead a (hdrop hr a ha)
  have hv := hb.letGo (h.stale.shrinks hshrinks) hd' hdrop'
  have hdone : Inv (((w.acquire s.target).letGo d).put p (w.value s)) := by
    apply hv.toAwaits.inv (h.balanced.unshifted _)
    · exact fun t ht => hv.kept t ht (hlive t ht)
    · exact fun x t hm ht hr => hback x (hshrinks.isMember hm) t ht (hshrinks.reaches hr)
    · exact fun hr => absurd (of_decide_eq_true hr) hcopy.1
  refine ⟨_, ?_, hdone⟩
  rw [PtrState.step, onPtrs_eq hd hs hne]
  simp only [cast_zero]
  exact onPtr_eq hv.slot hdone

theorem Inv.assignMoveCast (hmove : Movable w s p) :
    ∃ w', w.step (.assignMoveCast p 0 q) = some w' ∧ Inv w' := by
  obtain ⟨hb, hstale⟩ := h.take hs
  have hd' : (w.put q {}).slot p = some d := (slot_put_ne hne).trans hd
  have hdrop' : Droppable (w.put q {}) d := by
    intro hr a ha
    have hat : d.address ≠ q := (slot_mem hd).2 ▸ hne
    rw [refCounter_put]
    exact hdrop ((released_put hat).mp hr) a ha
  have hv := hb.letGo hstale hd' hdrop'
  have hdone : Inv (((w.put q {}).letGo d).put p (w.value s)) := by
    apply hv.toAwaits.inv (h.balanced.unshifted _)
    · intro t ht
      apply hv.kept t ht
      rw [refCounter_put]
      exact h.live hs t ht
    · exact fun x t hm ht hr => hback x (isMember_put hm) t ht (reaches_put_empty hr)
    · intro hr
      apply hmove.imp _ fun hnot x hm => hnot x (isMember_put (hv.member p x hm))
      intro hdropped t ht
      apply hv.dead
      rw [refCounter_put]
      exact hdropped (of_decide_eq_true hr) t ht
  refine ⟨_, ?_, hdone⟩
  rw [PtrState.step, onPtrs_eq hd hs hne]
  simp only [cast_zero, h.passOn hs]
  exact onPtr_eq hv.slot hdone

end Assignments

theorem reaches_allocate {o : HeapObject} {x : Address} (hnew : o.address ∉ w.heap.addresses)
    (hr : (w.allocate o).heap.Reaches o.address x) :
    x = o.address := by
  obtain rfl | ⟨y, hedge, -⟩ := hr.cases_head
  · rfl
  · rw [edge_of_find (find_allocate hnew)] at hedge
    simp only [targets_emptied_members] at hedge
    cases hedge

section New
variable {o : HeapObject} (h : Inv w) (hnew : o.address ∉ w.heap.addresses)
include h hnew

theorem Inv.staleMembers_allocate : StaleMembers (w.allocate o) := by
  intro x c hf t ht hr b hb
  by_cases hx : x = o.address
  · subst hx
    rw [find_allocate hnew] at hf
    cases hf
    obtain ⟨u, -, rfl⟩ := List.mem_map.mp ht
    cases hb
  · rw [find_allocate_ne hx] at hf
    have hknown := h.balanced.known b
      (List.mem_append_right _ (mem_targets (member_mem_slots hf ht) hb))
    have hne : b ≠ o.address := fun he => hnew (he ▸ hknown)
    rw [refCounter_allocate_ne hne]
    exact h.stale x c hf t ht (List.mem_of_mem_filter hr) b hb

theorem Inv.construct (hfresh : w.Fresh (p :: o.members.map PtrSlot.address)) :
    Inv ((w.allocate o).newPtr p typeIndex ⟨some o.address, 0, false⟩) := by
  obtain ⟨hnodup, hnone⟩ := hfresh
  obtain ⟨hp, hnodup⟩ := List.nodup_cons.mp hnodup
  have hb := h.balanced.allocate hnew ⟨hnodup, fun q hq => hnone q (List.mem_cons_of_mem _ hq)⟩
  apply inv_newPtr hb (h.staleMembers_allocate hnew) _ rfl
  · intro t ht
    obtain rfl := List.mem_singleton.mp ht
    rw [refCounter_allocate hnew]
    decide
  · refine ⟨List.nodup_singleton p, fun q hq hmem => ?_⟩
    obtain rfl := List.mem_singleton.mp hq
    rw [slots_allocate, List.map_append, List.map_map] at hmem
    exact (List.mem_append.mp hmem).elim (hnone q List.mem_cons_self) hp

theorem Inv.assignNew (hd : w.slot p = some d) (hdrop : Droppable w d)
    (hfresh : w.Fresh (o.members.map PtrSlot.address)) :
    ∃ w', w.step (.assignNew p o) = some w' ∧ Inv w' := by
  have hb := h.balanced.allocate hnew hfresh
  obtain ⟨hmem, hp⟩ := slot_mem hd
  have hd' : (w.allocate o).slot p = some d := by
    rw [PtrState.slot, slots_allocate, List.find?_append]
    exact Option.or_of_isSome (Option.isSome_of_eq_some hd) |>.trans hd
  have hdrop' : Droppable (w.allocate o) d := by
    intro hr a ha
    have hknown := h.balanced.known a (List.mem_append_right _ (mem_targets hmem ha))
    have hne : a ≠ o.address := fun he => hnew (he ▸ hknown)
    rw [refCounter_allocate_ne hne]
    exact hdrop (List.mem_of_mem_filter hr) a ha
  have hv := hb.letGo (h.staleMembers_allocate hnew) hd' hdrop'
  have hdone : Inv (((w.allocate o).letGo d).put p ⟨some o.address, 0, false⟩) := by
    apply Awaits.inv hv.toAwaits rfl
    · intro t ht
      obtain rfl := List.mem_singleton.mp ht
      apply hv.kept _ (List.mem_singleton_self _)
      rw [refCounter_allocate hnew]
      decide
    · -- the new object is not entered anywhere, and its members are not `p`
      rintro x t ⟨c, hf, hmember⟩ ht hr
      cases ht
      obtain rfl := reaches_allocate hnew hr
      rw [find_allocate hnew] at hf
      cases hf
      rw [List.map_map] at hmember
      exact hfresh.2 p hmember (hp ▸ List.mem_map_of_mem hmem)
    · intro hr
      cases hr
  refine ⟨_, ?_, hdone⟩
  rw [PtrState.step, hd]
  simp only [if_pos (And.intro hnew hfresh)]
  exact onPtr_eq hv.slot hdone

end New

theorem Inv.reset (h : Inv w) (hs : w.slot p = some s) (hdrop : Droppable w s)
    (hlast : ∀ x, w.heap.IsMember p x → ∀ a ∈ s.target, (w.heap.refCounter a).toNat ≤ 1) :
    Inv (w.resetPtr s) := by
  have hgo := h.balanced.resetPtr h.stale hs hdrop
  refine ⟨hgo.balanced, ?_⟩
  intro x o hf t ht hr b hb
  by_cases hp : t.address = p
  swap
  · exact h.stale.release hgo.shrinks x o hf t ht hp hr b hb
  obtain rfl := member_eq hgo.balanced.slots (h.balanced.slot_resetPtr h.stale hs hdrop) hf ht hp
  by_contra hlive
  have hwas : w.heap.refCounter b ≠ 0 := fun hz => hlive (hgo.shrinks.dead b hz)
  have hnot : t.address ∉ w.released := fun hr => hwas (hdrop hr b hb)
  have hone : (w.value t).refs = [b] := by simp [PtrValue.refs, value, hnot, hb]
  have hcount := (h.balanced.release hs).counter b hwas
  rw [hone, List.append_nil, List.singleton_append, List.count_cons_self] at hcount
  have hle := hlast x (hgo.shrinks.isMember ⟨o, hf, hp ▸ List.mem_map_of_mem ht⟩) b hb
  have hnone : b ∉ (w.release p).held := List.count_eq_zero.mp (by
    change (w.heap.refCounter b).toNat = _ at hcount
    omega)
  have hafter := hgo.balanced.counter b hlive
  rw [List.nil_append, List.count_eq_zero.mpr fun hmem => hnone (hgo.shrinks.held.subset hmem)]
    at hafter
  exact hlive (UInt16.toNat_inj.mp hafter)

theorem Inv.destroy (h : Inv w) (hs : w.slot p = some s) (hdrop : Droppable w s) :
    Inv ((w.letGo s).removePtr p) := by
  have hv := h.balanced.letGo h.stale hs hdrop
  refine ⟨hv.balanced.removePtr ?_, hv.stale⟩
  intro t ht hp
  have hmine := slot_of_mem hv.balanced.slots (List.mem_append_left _ ht)
  rw [hp, hv.slot] at hmine
  cases hmine
  rfl

theorem Inv.fromPtr {f : PtrSlot → PtrState} (h : Inv w)
    (hf : ∀ s, w.slot q = some s → w.Fresh [p] → Inv (f s)) :
    ∃ w', w.fromPtr p q f = some w' ∧ Inv w' := by
  unfold PtrState.fromPtr
  split
  · exact ⟨w, rfl, h⟩
  · next s hs =>
    split
    · next hfresh => exact ⟨f s, (hf s hs hfresh).defined, hf s hs hfresh⟩
    · exact ⟨w, rfl, h⟩

theorem Inv.onPtrs {e : PtrEvent} {f : PtrSlot → PtrSlot → Option PtrState} (h : Inv w)
    (he : w.step e = w.onPtrs p q f) (hf : ∀ d s, w.slot p = some d → w.slot q = some s → p ≠ q →
      ∃ w', w.step e = some w' ∧ Inv w') : ∃ w', w.step e = some w' ∧ Inv w' := by
  by_cases hne : p = q
  · refine ⟨w, ?_, h⟩
    rw [he, PtrState.onPtrs]
    split
    · exact if_pos hne
    · rfl
  · cases hd : w.slot p with
    | none => exact ⟨w, by rw [he, PtrState.onPtrs, hd], h⟩
    | some d =>
      cases hs : w.slot q with
      | none => exact ⟨w, by rw [he, PtrState.onPtrs, hd, hs], h⟩
      | some s => exact hf d s hd hs hne

theorem Inv.step {e : PtrEvent} (h : Inv w) (hc : NoCycle w e) (hp : Prudent w e) :
    ∃ w', w.step e = some w' ∧ Inv w' := by
  cases e with
  | create p typeIndex =>
    rw [PtrState.step]
    split
    · next hfresh => exact ⟨_, rfl, h.create hfresh⟩
    · exact ⟨w, rfl, h⟩
  | construct p typeIndex o =>
    rw [PtrState.step]
    split
    · next hok => exact ⟨_, rfl, h.construct hok.1 hok.2⟩
    · exact ⟨w, rfl, h⟩
  | copy p typeIndex q =>
    apply h.fromPtr
    exact fun s hs hfresh => h.copy hs hfresh (hp s hs)
  | cast p typeIndex distance q =>
    obtain ⟨rfl, hcopy⟩ := hp
    apply h.fromPtr
    intro s hs hfresh
    rw [cast_zero]
    exact h.copy hs hfresh (hcopy s hs)
  | move p typeIndex q =>
    apply h.fromPtr
    exact fun s hs hfresh => h.move hs hfresh
  | moveCast p typeIndex distance q =>
    obtain rfl := hp
    apply h.fromPtr
    intro s hs hfresh
    rw [cast_zero, h.passOn hs]
    exact h.move hs hfresh
  | assignNew p o =>
    cases hd : w.slot p with
    | none => exact ⟨w, by rw [PtrState.step, hd], h⟩
    | some d =>
      by_cases hok : o.address ∉ w.heap.addresses ∧ w.Fresh (o.members.map PtrSlot.address)
      · exact h.assignNew hok.1 hd (hp d hd) hok.2
      · refine ⟨w, ?_, h⟩
        rw [PtrState.step, hd]
        exact if_neg hok
  | assign p q =>
    apply h.onPtrs rfl
    intro d s hd hs hne
    obtain ⟨hdrop, hcopy, hsurvives⟩ := hp hne
    exact h.assign hd hs hne (hdrop d hd) (hc hne s hs) (hcopy s hs) hsurvives
  | assignCast p distance q =>
    obtain ⟨rfl, hdrop, hcopy⟩ := hp
    apply h.onPtrs rfl
    intro d s hd hs hne
    exact h.assignCast hd hs hne (hdrop d hd) (hc hne s hs) (hcopy s hs)
  | assignMove p q =>
    apply h.onPtrs rfl
    intro d s hd hs hne
    obtain ⟨hdrop, hmove, hsurvives⟩ := hp hne
    exact h.assignMove hd hs hne (hdrop d hd) (hc hne s hs) (hmove s hs) hsurvives
  | assignMoveCast p distance q =>
    obtain ⟨rfl, hdrop, hmove⟩ := hp
    apply h.onPtrs rfl
    intro d s hd hs hne
    exact h.assignMoveCast hd hs hne (hdrop d hd) (hc hne s hs) (hmove s hs)
  | reset p =>
    rw [PtrState.step]
    split
    · exact ⟨w, rfl, h⟩
    · next s hs =>
      obtain ⟨hdrop, hlast⟩ := hp s hs
      have hdone := h.reset hs hdrop hlast
      exact ⟨_, hdone.defined, hdone⟩
  | destroy p =>
    rw [PtrState.step]
    split
    · exact ⟨w, rfl, h⟩
    · next s hs =>
      have hslot : w.slot p = some s := by
        rw [PtrState.slot, Heap.slots, List.find?_append, hs]
        rfl
      have hdone := h.destroy hslot (hp s hslot)
      exact ⟨_, hdone.defined, hdone⟩

end Operations

section Runs
variable {w : PtrState}

theorem holders_eq (w : PtrState) (a : Address) : w.holders a = w.held.count a := by
  rw [holders, held, targets, List.count, List.countP_filterMap, List.countP_filter]
  apply List.countP_congr
  intro s _
  cases s.target <;> simp

theorem Inv.countsExact (h : Inv w) : CountsExact w := by
  have hmem : ∀ o ∈ w.heap.objects, o.address ∈ w.heap.addresses := fun o ho =>
    mem_addresses_iff.mpr ⟨o, ho, rfl⟩
  have hgone : ∀ a, a ∈ w.heap.deleted ↔ a ∈ w.heap.addresses ∧ w.heap.refCounter a = 0 := by
    intro a
    rw [← h.balanced.gone a, List.append_nil]
  have hcounter : ∀ a, w.heap.refCounter a ≠ 0 → (w.heap.refCounter a).toNat = w.holders a := by
    intro a hlive
    rw [holders_eq]
    exact h.balanced.counter a hlive
  constructor
  case counter =>
    intro o ho hnot
    rw [← refCounter_of_find (find_of_nodup h.balanced.addresses ho)]
    exact hcounter _ fun hz => hnot ((hgone _).mpr ⟨hmem o ho, hz⟩)
  case deleted =>
    intro o ho
    constructor
    · intro hd
      rw [holders_eq, List.count_eq_zero]
      exact h.balanced.unheld _ ((hgone _).mp hd).2
    · intro hnone
      refine (hgone _).mpr ⟨hmem o ho, ?_⟩
      by_contra hlive
      have hzero := hcounter _ hlive
      rw [hnone] at hzero
      exact hlive (UInt16.toNat_inj.mp hzero)
  case once =>
    have honce := h.balanced.once
    rwa [List.append_nil] at honce

/-- Over a run of prudent operations that close no cycle, the counters are exact, and the objects
that are deleted are those that nobody holds. -/
theorem counts_exact {es : List PtrEvent} (hc : Along step NoCycle {} es)
    (hp : Along step Prudent {} es) : ∃ w, run step {} es = some w ∧ CountsExact w := by
  obtain ⟨w, hrun, hinv⟩ := run_invariant (fun _ _ h hcp => h.step hcp.1 hcp.2) inv_initial
    (hc.and hp)
  exact ⟨w, hrun, hinv.countsExact⟩

instance (w : PtrState) (s : PtrSlot) : Decidable (Droppable w s) :=
  inferInstanceAs (Decidable (_ → ∀ a ∈ s.target, _))

instance (w : PtrState) (target : Option Address) : Decidable (w.Room target) :=
  inferInstanceAs (Decidable (∀ a ∈ target, _))

instance (w : PtrState) (s : PtrSlot) : Decidable (Copyable w s) :=
  inferInstanceAs (Decidable (_ ∧ _))

def IsVariable (w : PtrState) (p : Address) : Prop :=
  ∀ o ∈ w.heap.objects, p ∉ o.members.map PtrSlot.address

theorem IsVariable.not_isMember {p x : Address} (h : w.IsVariable p) : ¬w.heap.IsMember p x := by
  rintro ⟨o, hf, hp⟩
  exact h o (find_mem hf).1 hp

/-- Operations that can be seen to be prudent and to close no cycle: nothing but variables is
copied and `Reset`, and a member is given only objects that lead nowhere. -/
def Plain (w : PtrState) : PtrEvent → Prop
  | .create _ _ | .construct _ _ _ | .move _ _ _ => True
  | .copy _ _ q => ∀ s ∈ w.slot q, Copyable w s
  | .assign p q => (∀ d ∈ w.slot p, Droppable w d) ∧ w.IsVariable q ∧
      ∀ s ∈ w.slot q, Copyable w s ∧ ∀ t ∈ s.target, w.heap.succ t = [] ∧
        ∀ o ∈ w.heap.find t, p ∉ o.members.map PtrSlot.address
  | .reset p => w.IsVariable p ∧ ∀ s ∈ w.slot p, Droppable w s
  | .destroy p => ∀ s ∈ w.slot p, Droppable w s
  | _ => False

instance (w : PtrState) : (e : PtrEvent) → Decidable (Plain w e)
  | .create _ _ | .construct _ _ _ | .move _ _ _ => inferInstanceAs (Decidable True)
  | .copy _ _ q => inferInstanceAs (Decidable (∀ s ∈ w.slot q, Copyable w s))
  | .assign p q => inferInstanceAs (Decidable ((∀ d ∈ w.slot p, Droppable w d) ∧
      (∀ o ∈ w.heap.objects, q ∉ o.members.map PtrSlot.address) ∧
      ∀ s ∈ w.slot q, Copyable w s ∧ ∀ t ∈ s.target, w.heap.succ t = [] ∧
        ∀ o ∈ w.heap.find t, p ∉ o.members.map PtrSlot.address))
  | .reset p => inferInstanceAs (Decidable ((∀ o ∈ w.heap.objects,
      p ∉ o.members.map PtrSlot.address) ∧ ∀ s ∈ w.slot p, Droppable w s))
  | .destroy p => inferInstanceAs (Decidable (∀ s ∈ w.slot p, Droppable w s))
  | .cast _ _ _ _ | .moveCast _ _ _ _ | .assignNew _ _ | .assignCast _ _ _ | .assignMove _ _
  | .assignMoveCast _ _ _ => inferInstanceAs (Decidable False)

theorem Plain.prudent {e : PtrEvent} (h : Plain w e) : Prudent w e := by
  cases e with
  | create | construct | move => trivial
  | copy | destroy => exact h
  | assign p q =>
    intro _
    exact ⟨h.1, fun s hs => (h.2.2 s hs).1, fun x hm => absurd hm h.2.1.not_isMember⟩
  | reset p => exact fun s hs => ⟨h.2 s hs, fun x hm => absurd hm h.1.not_isMember⟩
  | cast | moveCast | assignNew | assignCast | assignMove | assignMoveCast => cases h

theorem Plain.noCycle {e : PtrEvent} (h : Plain w e) : NoCycle w e := by
  cases e with
  | create | construct | move | copy | destroy | reset | cast | moveCast | assignNew => trivial
  | assign p q =>
    rintro _ s hs x ⟨o, hf, hp⟩ t ht hr
    obtain ⟨hleaf, hnot⟩ := (h.2.2 s hs).2 t ht
    obtain rfl | ⟨y, hedge, -⟩ := hr.cases_head
    · exact hnot o hf hp
    · rw [Edge, hleaf] at hedge
      cases hedge
  | assignCast | assignMove | assignMoveCast => cases h

/-- An object with a member, which leads to another object; both go with the last variable. -/
theorem counts_exact_chain : ∃ w, run step {} [
    .construct 100 0 ⟨16, 0, 0, [⟨17, 0, none, true⟩], true, []⟩,
    .construct 101 0 ⟨32, 0, 0, [], true, []⟩, .assign 17 101, .destroy 101, .copy 102 0 100,
    .destroy 100, .reset 102] = some w ∧ CountsExact w := by
  have hplain : Along step Plain {} [.construct 100 0 ⟨16, 0, 0, [⟨17, 0, none, true⟩], true, []⟩,
      .construct 101 0 ⟨32, 0, 0, [], true, []⟩, .assign 17 101, .destroy 101, .copy 102 0 100,
      .destroy 100, .reset 102] := by decide +kernel
  exact counts_exact (hplain.mono fun _ _ h => h.noCycle) (hplain.mono fun _ _ h => h.prudent)

/-- A `Ptr` that was `Reset` takes a reference of another one with it when it ends. -/
theorem reset_then_destroy : ¬∀ es, Along step NoCycle {} es →
    ∃ w, run step {} es = some w ∧ CountsExact w := by
  intro hall
  obtain ⟨w, hrun, hexact⟩ := hall [.construct 100 0 ⟨16, 0, 0, [], true, []⟩, .copy 101 0 100,
    .reset 100, .destroy 100] (.of_forall (by simp [NoCycle]))
  have hobjects := run_observe (f := fun w => w.heap.objects.map HeapObject.address) (b := [16])
    hrun (by decide +kernel)
  have hdeleted := run_observe (f := fun w => w.heap.deleted) (b := [16]) hrun (by decide +kernel)
  have hheld := run_observe (f := fun w => w.holders 16) (b := 1) hrun (by decide +kernel)
  have hmem : 16 ∈ w.heap.objects.map HeapObject.address := by
    rw [hobjects]
    exact List.mem_singleton_self 16
  obtain ⟨o, ho, haddr⟩ := List.mem_map.mp hmem
  have hnone := (hexact.deleted o ho).mp (by
    rw [haddr, hdeleted]
    exact List.mem_singleton_self 16)
  rw [haddr, hheld] at hnone
  cases hnone

end Runs
end PtrState
end AetherClient
