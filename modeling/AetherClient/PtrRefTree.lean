import Mathlib.Data.Fintype.Card
import AetherClient.DepthFirst
import AetherClient.Ptr
import AetherClient.RefGraph
import AetherClient.Tables

set_option autoImplicit false

namespace AetherClient
open RefGraph DepthFirst

theorem RefTree.pointer_countReference (t : RefTree) : t.countReference.pointer = t.pointer := rfl

theorem RefTree.pointer_insertChild (child : Address) (t : RefTree) :
    (t.insertChild child).pointer = t.pointer := rfl

/-- A graph of `RefTree` nodes. A node is told from the others by its own address (a `RefTree*`), so
several nodes may stand for one object. -/
structure RefTreeGraph (ν : Type) where
  pointer : ν → Address
  children : ν → List ν

/-- `RefTree::IsReachable`. The set of visited nodes is handed on by reference, also to the calls
that come after one that has returned. -/
def RefTreeGraph.isReachable {ν : Type} [DecidableEq ν] (G : RefTreeGraph ν) (p : Address)
    (fuel : ℕ) (visited : List ν) (node : ν) : Option (Bool × List ν) :=
  search G.children (fun rt => G.pointer rt == p) fuel visited node

namespace ObjMap
section Reference
variable {m : ObjMap} {a b p x : Address} {r : ℕ}

def pointers (m : ObjMap) : List Address := m.map RefTree.pointer

def reached (m : ObjMap) (a : Address) : ℕ :=
  ((m.lookup a).map RefTree.reachableRefCount).getD 0

theorem lookup_pointer {t : RefTree} (h : m.lookup a = some t) : t.pointer = a := by
  simpa using List.find?_some h

theorem lookup_eq_none_iff : m.lookup a = none ↔ a ∉ m.pointers := by
  simp [lookup, pointers]

theorem lookup_of_mem {t : RefTree} (hn : m.pointers.Nodup) (ht : t ∈ m) :
    m.lookup t.pointer = some t := Tables.find_of_key hn ht

theorem lookup_modify {f : RefTree → RefTree} (hf : ∀ t, (f t).pointer = t.pointer) :
    (m.modify p f).lookup a = (m.lookup a).map fun t => if t.pointer = p then f t else t := by
  have hcomp : (fun t : RefTree => decide (t.pointer = a)) ∘
      (fun t => if t.pointer = p then f t else t) = fun t => decide (t.pointer = a) := by
    funext t
    dsimp only [Function.comp]
    split_ifs
    · rw [hf]
    · rfl
  rw [lookup, modify, List.find?_map, hcomp]
  rfl

theorem pointers_modify {f : RefTree → RefTree} (hf : ∀ t, (f t).pointer = t.pointer) :
    (m.modify p f).pointers = m.pointers := by
  unfold pointers modify
  rw [List.map_map]
  apply List.map_congr_left
  intro t _
  dsimp only [Function.comp]
  split_ifs
  · exact hf t
  · rfl

theorem lookup_tryEmplace : (m.tryEmplace p r).lookup a =
    (m.lookup a).or (if a = p then some { pointer := p, refCount := r } else none) := by
  unfold tryEmplace
  split_ifs with hany he he
  · subst he
    have hmem : a ∈ m.pointers := by simpa [pointers] using hany
    obtain ⟨t, ht⟩ := Option.ne_none_iff_exists'.1 (mt lookup_eq_none_iff.1 (not_not.2 hmem))
    rw [ht, Option.some_or]
  · rw [Option.or_none]
  · subst he
    simp [lookup, List.find?_append]
  · have hne : p ≠ a := Ne.symm he
    simp [lookup, List.find?_append, hne]

theorem lookup_reference : (m.reference x p r).lookup a =
    ((m.lookup a).or (if a = p then some { pointer := p, refCount := r } else none)).map fun t =>
      { t with
        reachableRefCount := t.reachableRefCount + if a = p then 1 else 0
        children := if a = x then t.children.insert p else t.children } := by
  unfold reference
  rw [lookup_modify (RefTree.pointer_insertChild p), lookup_modify RefTree.pointer_countReference,
    lookup_tryEmplace, Option.map_map]
  apply Option.map_congr
  intro t ht
  rw [← lookup_tryEmplace] at ht
  obtain rfl : t.pointer = a := lookup_pointer ht
  dsimp only [Function.comp]
  by_cases h1 : t.pointer = p
  · simp only [if_pos h1, RefTree.pointer_countReference]
    split_ifs <;> rfl
  · simp only [if_neg h1]
    split_ifs <;> rfl

theorem pointers_reference : (m.reference x p r).pointers = (m.tryEmplace p r).pointers := by
  unfold reference
  rw [pointers_modify (RefTree.pointer_insertChild p),
    pointers_modify RefTree.pointer_countReference]

theorem mem_pointers_reference :
    b ∈ (m.reference x p r).pointers ↔ b ∈ m.pointers ∨ b = p := by
  rw [pointers_reference]
  unfold tryEmplace
  split_ifs with hany
  · have hmem : p ∈ m.pointers := by simpa [pointers] using hany
    constructor
    · exact Or.inl
    · rintro (h | rfl)
      · exact h
      · exact hmem
  · simp [pointers]

theorem pointers_reference_nodup (hn : m.pointers.Nodup) :
    (m.reference x p r).pointers.Nodup := by
  rw [pointers_reference]
  unfold tryEmplace
  split_ifs with hany
  · exact hn
  · have hmem : p ∉ m.pointers := by simpa [pointers] using hany
    rw [pointers, List.map_append]
    exact hn.append (List.nodup_singleton _) (by simpa using hmem)

theorem refCount_reference (counter : Address → ℕ) (hn : m.pointers.Nodup)
    (hm : ∀ t ∈ m, t.refCount = counter t.pointer) :
    ∀ t ∈ m.reference x p (counter p), t.refCount = counter t.pointer := by
  intro t ht
  have hl := lookup_of_mem (pointers_reference_nodup hn) ht
  rw [lookup_reference] at hl
  obtain ⟨u, hu, ht'⟩ := Option.map_eq_some_iff.1 hl
  have hcount : u.refCount = t.refCount := by rw [← ht']
  have hpointer : u.pointer = t.pointer := by rw [← ht']
  rw [← hcount, ← hpointer]
  rcases Option.or_eq_some_iff.1 hu with hold | ⟨-, hnew⟩
  · exact hm u (List.mem_of_find?_eq_some hold)
  · split_ifs at hnew
    cases hnew
    rfl

theorem reached_reference :
    (m.reference x p r).reached a = m.reached a + if a = p then 1 else 0 := by
  unfold reached
  rw [lookup_reference]
  cases m.lookup a with
  | none => by_cases h : a = p <;> simp [h]
  | some t => by_cases h : a = p <;> simp [h]

theorem mem_childrenOf_reference (hx : x ∈ m.pointers) :
    b ∈ (m.reference x p r).childrenOf a ↔ b ∈ m.childrenOf a ∨ (a = x ∧ b = p) := by
  unfold childrenOf
  rw [lookup_reference]
  cases hl : m.lookup a with
  | none =>
    have ha : a ≠ x := by
      rintro rfl
      exact lookup_eq_none_iff.1 hl hx
    by_cases h : a = p <;> simp [h, ha]
  | some t =>
    by_cases h : a = x <;> simp [h, List.mem_insert_iff, or_comm]

end Reference

section Reachable
variable {m : ObjMap} {p : Address}

def graph (m : ObjMap) : RefTreeGraph Address := ⟨id, m.childrenOf⟩

theorem foldl_scanChild_true (f : List Address → Address → Bool × List Address)
    (cs visited : List Address) :
    cs.foldl (scanChild p f) (true, visited) = (true, visited) := by
  induction cs with
  | nil => rfl
  | cons c cs ih => simpa [scanChild] using ih

theorem foldl_scanChild_eq {f : List Address → Address → Bool × List Address}
    {call : List Address → Address → Option (Bool × List Address)}
    (hcall : ∀ visited n r, call visited n = some r → f visited n = r) (cs visited : List Address)
    {r : Bool × List Address} (h : scan (fun c => c == p) call cs visited = some r) :
    cs.foldl (scanChild p f) (false, visited) = r := by
  induction cs generalizing visited with
  | nil => exact Option.some.inj h
  | cons c cs ih =>
    rw [List.foldl_cons]
    rw [scan] at h
    split_ifs at h with hp hv
    · have hscan : scanChild p f (false, visited) c = (true, visited) := by
        have he : c = p := by simpa using hp
        simp [scanChild, he]
      rw [hscan, foldl_scanChild_true]
      exact Option.some.inj h
    · have hscan : scanChild p f (false, visited) c = (false, visited) := by
        have hne : c ≠ p := by simpa using hp
        simp [scanChild, hne, hv]
      rw [hscan]
      exact ih visited h
    · have hscan : scanChild p f (false, visited) c = f visited c := by
        have hne : c ≠ p := by simpa using hp
        simp [scanChild, hne, hv]
      rw [hscan]
      cases hc : call visited c with
      | none =>
        rw [hc] at h
        cases h
      | some res =>
        obtain ⟨found, after⟩ := res
        rw [hcall visited c _ hc]
        rw [hc] at h
        cases found with
        | true =>
          rw [foldl_scanChild_true]
          exact Option.some.inj h
        | false => exact ih after h

theorem isReachable_eq (fuel : ℕ) {visited : List Address} {n : Address} {r : Bool × List Address}
    (h : m.graph.isReachable p fuel visited n = some r) :
    m.isReachable p fuel visited n = r := by
  induction fuel generalizing visited n r with
  | zero => cases h
  | succ fuel ih => exact foldl_scanChild_eq (fun _ _ _ hr => ih hr) _ _ h

theorem isReachable_iff (hclosed : ∀ n ∈ m.pointers, ∀ c ∈ m.childrenOf n, c ∈ m.pointers)
    {n : Address} (hn : n ∈ m.pointers) :
    (m.isReachable p m.length [] n).1 = true ↔
      ReachIn m.childrenOf m.pointers.toFinset (m.childrenOf n) p := by
  have hclosed' : ∀ n ∈ m.pointers.toFinset, ∀ c ∈ m.childrenOf n, c ∈ m.pointers.toFinset := by
    simpa using hclosed
  have hn' : n ∈ m.pointers.toFinset := List.mem_toFinset.2 hn
  have hfuel : m.pointers.toFinset.card ≤ m.length :=
    (List.toFinset_card_le m.pointers).trans_eq (List.length_map _)
  obtain ⟨r, hr, hpath⟩ := search_spec (fun c => c == p) hclosed' hn'
  rw [isReachable_eq _ (hr _ hfuel), hpath, reachIn_succ_iff hclosed' hn']
  constructor
  · rintro ⟨b, hb, he⟩
    rwa [← eq_of_beq he]
  · intro h
    exact ⟨p, h, beq_self_eq_true p⟩

end Reachable
end ObjMap

namespace RefTreeGraph

section Path
variable {ν : Type} (G : RefTreeGraph ν)

def Path : ν → ν → Prop := Relation.TransGen fun a b => b ∈ G.children a

/-- `IsReachable` comes to its end on every finite graph, and then it tells whether a path leads to
a node with the address. -/
theorem isReachable_iff_path [Fintype ν] [DecidableEq ν] (a : ν) (p : Address) :
    ∃ result : Bool,
      (∀ fuel, Fintype.card ν ≤ fuel →
        (G.isReachable p fuel [] a).map Prod.fst = some result) ∧
      (result = true ↔ ∃ b, G.Path a b ∧ G.pointer b = p) := by
  have hclosed : ∀ n ∈ Finset.univ, ∀ c ∈ G.children n, c ∈ Finset.univ :=
    fun _ _ c _ => Finset.mem_univ c
  obtain ⟨r, hr, hpath⟩ :=
    search_spec (fun rt => G.pointer rt == p) hclosed (Finset.mem_univ a)
  refine ⟨r.1, ?_, ?_⟩
  · intro fuel hfuel
    rw [isReachable, hr fuel hfuel]
    rfl
  · rw [hpath]
    constructor
    · rintro ⟨b, hb, he⟩
      exact ⟨b, hb, eq_of_beq he⟩
    · rintro ⟨b, hb, he⟩
      exact ⟨b, hb, beq_iff_eq.2 he⟩

end Path
end RefTreeGraph
end AetherClient
