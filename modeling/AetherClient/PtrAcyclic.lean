import AetherClient.PtrCollect
import Mathlib.Logic.Relation

set_option autoImplicit false

namespace AetherClient
open Relation

namespace Heap

def Edge (h : Heap) (a b : Address) : Prop := b ∈ h.succ a

def Reaches (h : Heap) : Address → Address → Prop := ReflTransGen h.Edge

def Acyclic (h : Heap) : Prop := ∀ a, ¬TransGen h.Edge a a

section Root
variable {h : Heap} {m : ObjMap} {a b holder : Address} {r n : ℕ}

/-- The walk has not met the object at `a`, which it started from. -/
def MetOnce (a : Address) (r : ℕ) (m : ObjMap) : Prop :=
  ∃ t ∈ m, t.pointer = a ∧ t.refCount = r ∧ t.reachableRefCount = 1

theorem MetOnce.reference (hm : MetOnce a r m) (hne : b ≠ a) :
    MetOnce a r (m.reference holder b n) := by
  obtain ⟨t, ht, hpointer, href, hreach⟩ := hm
  have hemplaced : t ∈ m.tryEmplace b n := by
    unfold ObjMap.tryEmplace
    split
    · exact ht
    · exact List.mem_append_left _ ht
  have hcounted : t ∈ (m.tryEmplace b n).modify b RefTree.countReference := by
    refine List.mem_map.mpr ⟨t, hemplaced, if_neg ?_⟩
    rw [hpointer]
    exact hne.symm
  refine ⟨_, List.mem_map_of_mem hcounted, ?_⟩
  split <;> exact ⟨hpointer, href, hreach⟩

theorem edge_of_get {o : HeapObject} {s : PtrSlot} (ho : h.find o.address = some o)
    (hs : s ∈ o.members) (hget : h.get s = some b) : h.Edge o.address b := by
  rw [Edge, succ, ho]
  exact List.mem_filterMap.mpr ⟨s, hs, (get_eq_some.mp hget).1⟩

section Visit
variable {visit : VisitState → HeapObject → VisitState} {o : HeapObject}

theorem MetOnce.visitPtr {st : VisitState} {s : PtrSlot} (ho : h.find o.address = some o)
    (hbelow : ∀ b, TransGen h.Edge o.address b → b ≠ a)
    (hvisit : ∀ (st : VisitState) (c : HeapObject), h.find c.address = some c →
      h.Edge o.address c.address → MetOnce a r st.objMap → MetOnce a r (visit st c).objMap)
    (hs : s ∈ o.members) (hm : MetOnce a r st.objMap) :
    MetOnce a r (visitPtr h visit o.address st s).objMap := by
  unfold Heap.visitPtr
  cases hget : h.get s with
  | none => exact hm
  | some b =>
    have hedge := edge_of_get ho hs hget
    have hmet : MetOnce a r (st.objMap.reference o.address b (h.refCounter b).toNat) :=
      hm.reference (hbelow b (.single hedge))
    simp only
    split
    · exact hmet
    · cases hb : h.find b with
      | none => exact hmet
      | some c =>
        obtain ⟨-, rfl⟩ := find_mem hb
        exact hvisit _ c hb hedge hmet

theorem MetOnce.visitParts {visitPtr : VisitState → PtrSlot → VisitState}
    (hvisit : ∀ (st : VisitState) (s : PtrSlot), s ∈ o.members → MetOnce a r st.objMap →
      MetOnce a r (visitPtr st s).objMap) {parts : List ObjectPart} (hparts : parts ⊆ o.parts)
    {st : VisitState} (hm : MetOnce a r st.objMap) :
    MetOnce a r (visitParts visitPtr o.address parts st).objMap := by
  induction parts generalizing st with
  | nil => exact hm
  | cons part bases ih =>
    unfold Heap.visitParts
    split
    · exact hm
    · have hmembers : ∀ s ∈ part.visited, s ∈ o.members := fun s hs =>
        HeapObject.mem_members_iff.2 ⟨part, hparts List.mem_cons_self, (List.mem_filter.1 hs).1⟩
      refine List.foldlRecOn part.visited visitPtr ?_ fun st hm s hs => hvisit st s (hmembers s hs) hm
      exact ih (fun q hq => hparts (List.mem_cons_of_mem _ hq)) hm

theorem MetOnce.visitObject (fuel : ℕ) {st : VisitState} {o : HeapObject}
    (ho : h.find o.address = some o) (hbelow : ∀ b, TransGen h.Edge o.address b → b ≠ a)
    (hm : MetOnce a r st.objMap) : MetOnce a r (h.visitObject fuel st o).objMap := by
  induction fuel generalizing st o with
  | zero => exact hm
  | succ fuel ih =>
    rw [Heap.visitObject]
    split
    · exact hm
    · refine MetOnce.visitParts (fun st s hs hm => ?_) (List.Subset.refl _) hm
      exact hm.visitPtr ho hbelow
        (fun st c hc hedge hm => ih hc (fun d hd => hbelow d (.head hedge hd)) hm) hs

end Visit

theorem giveUp_of_acyclic (hacyclic : h.Acyclic) (ptrTypeIndex : ℕ) (a : Address) :
    h.giveUp ptrTypeIndex a = h.decrement a 1 := by
  unfold giveUp
  split
  · rfl
  · next hone =>
    unfold decrementGraph
    cases hf : h.find a with
    | none =>
      have hnone : ∀ o ∈ h.objects, o.address ≠ a := by
        intro o ho
        simpa using List.find?_eq_none.mp hf o ho
      have hsame : h.objects.map (fun o => if o.address = a then
          { o with refCounter := o.refCounter - 1 } else o) = h.objects := by
        conv_rhs => rw [← List.map_id h.objects]
        exact List.map_congr_left fun o ho => if_neg (hnone o ho)
      change h = { h with objects := h.objects.map _ }
      rw [hsame]
    | some o =>
      obtain ⟨-, rfl⟩ := find_mem hf
      have hcounter : o.refCounter ≠ 1 := by
        rw [refCounter, hf] at hone
        exact hone
      have hbelow : ∀ b, TransGen h.Edge o.address b → b ≠ o.address :=
        fun b hb he => hacyclic b (he ▸ hb)
      have hmet : MetOnce o.address o.refCounter.toNat
          (h.countReferences ptrTypeIndex o.address o) := by
        refine MetOnce.visitParts (fun st s hs hm => hm.visitPtr hf hbelow (fun st c hc hedge hm => ?_)
          hs) (fun _ => HeapObject.mem_parts_of_partsOf) ⟨_, List.mem_singleton_self _, rfl, rfl, rfl⟩
        exact MetOnce.visitObject _ hc (fun d hd => hbelow d (.head hedge hd)) hm
      have hneeded :
          safeToDelete (h.countReferences ptrTypeIndex o.address o) o.address = false := by
        obtain ⟨t, ht, hpointer, href, hreach⟩ := hmet
        refine List.all_eq_false.mpr ⟨t, ht, ?_⟩
        rw [if_pos hpointer, href, hreach]
        simpa using fun he => hcounter (UInt16.toNat_inj.mp he)
      simp only [hneeded, Bool.and_false, Bool.false_eq_true, if_false]

end Root

end Heap
end AetherClient
