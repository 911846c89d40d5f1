import Mathlib.Algebra.GroupWithZero.Nat
import Mathlib.Data.List.Perm.Subperm
import Mathlib.Data.List.Nodup

set_option autoImplicit false

namespace AetherClient

def Ascending {κ ν : Type} (less : κ → κ → Bool) (entries : List (κ × ν)) : Prop :=
  entries.Pairwise fun e e' => less e.1 e'.1 = true

namespace StdMap

section Operations
variable {κ ν : Type} {less : κ → κ → Bool}

/-- `operator[]` and what is then done to the value, a new one if the key is not there. -/
def access (less : κ → κ → Bool) (fresh : ν) (k : κ) (f : ν → ν) : List (κ × ν) → List (κ × ν)
  | [] => [(k, f fresh)]
  | e :: entries =>
    if less e.1 k then e :: access less fresh k f entries
    else if less k e.1 then (k, f fresh) :: e :: entries
    else (e.1, f e.2) :: entries

def erase [DecidableEq κ] (k : κ) (entries : List (κ × ν)) : List (κ × ν) :=
  entries.filter fun e => e.1 ≠ k

structure StrictOrder (less : κ → κ → Bool) : Prop where
  irrefl : ∀ x, less x x = false
  trans : ∀ x y z, less x y = true → less y z = true → less x z = true
  total : ∀ x y, less x y = false → less y x = false → x = y

section Ordered
variable {entries : List (κ × ν)} {fresh : ν} {k : κ} {f : ν → ν}

theorem StrictOrder.ne (hord : StrictOrder less) {x y : κ} (h : less x y = true) : x ≠ y := by
  rintro rfl
  rw [hord.irrefl] at h
  cases h

theorem nodup_keys (hord : StrictOrder less) (hasc : Ascending less entries) :
    (entries.map Prod.fst).Nodup :=
  List.pairwise_map.mpr (hasc.imp fun h => hord.ne h)

theorem keys_access_of_mem (hord : StrictOrder less) (hasc : Ascending less entries)
    (hmem : k ∈ entries.map Prod.fst) :
    (access less fresh k f entries).map Prod.fst = entries.map Prod.fst := by
  induction entries with
  | nil => cases hmem
  | cons e entries ih =>
    obtain ⟨he, hrest⟩ := List.pairwise_cons.mp hasc
    rw [access]
    obtain rfl | htail := List.mem_cons.mp hmem
    · rw [hord.irrefl, if_neg Bool.false_ne_true, if_neg Bool.false_ne_true]
      rfl
    · obtain ⟨e', he', rfl⟩ := List.mem_map.mp htail
      rw [if_pos (he e' he'), List.map_cons, List.map_cons, ih hrest htail]

variable [DecidableEq κ]

theorem ascending_erase (hasc : Ascending less entries) : Ascending less (erase k entries) :=
  hasc.filter _

theorem lookup_of_less (hord : StrictOrder less) (hless : ∀ e ∈ entries, less k e.1 = true) :
    entries.lookup k = none := by
  rw [List.lookup_eq_none_iff]
  intro e he
  simpa using hord.ne (hless e he)

theorem access_perm (hord : StrictOrder less) (hasc : Ascending less entries) :
    (access less fresh k f entries).Perm
      ((k, f ((entries.lookup k).getD fresh)) :: erase k entries) := by
  induction entries with
  | nil => exact List.Perm.refl _
  | cons e entries ih =>
    obtain ⟨he, hrest⟩ := List.pairwise_cons.mp hasc
    rw [access]
    by_cases hbefore : less e.1 k = true
    · have hne : e.1 ≠ k := hord.ne hbefore
      have herase : erase k (e :: entries) = e :: erase k entries := by simp [erase, hne]
      have hlookup : (e :: entries).lookup k = entries.lookup k := by
        rw [List.lookup_cons, beq_eq_false_iff_ne.mpr hne.symm]
      rw [if_pos hbefore, herase, hlookup]
      exact ((ih hrest).cons e).trans (List.Perm.swap _ _ _)
    · rw [if_neg hbefore]
      by_cases hafter : less k e.1 = true
      · have hall : ∀ e' ∈ e :: entries, less k e'.1 = true := by
          intro e' he'
          obtain rfl | he' := List.mem_cons.mp he'
          · exact hafter
          · exact hord.trans _ _ _ hafter (he e' he')
        have herase : erase k (e :: entries) = e :: entries := by
          apply List.filter_eq_self.mpr
          intro e' he'
          simpa using (hord.ne (hall e' he')).symm
        rw [if_pos hafter, lookup_of_less hord hall, herase]
        exact List.Perm.refl _
      · obtain rfl : e.1 = k := hord.total _ _ (by simpa using hbefore) (by simpa using hafter)
        have herase : erase e.1 (e :: entries) = entries := by
          rw [erase, List.filter_cons_of_neg (by simp)]
          apply List.filter_eq_self.mpr
          intro e' he'
          simpa using (hord.ne (he e' he')).symm
        rw [if_neg hafter, List.lookup_cons, beq_self_eq_true, herase]
        exact List.Perm.refl _

theorem mem_access (hord : StrictOrder less) (hasc : Ascending less entries) {e : κ × ν}
    (he : e ∈ access less fresh k f entries) :
    e = (k, f ((entries.lookup k).getD fresh)) ∨ e ∈ entries := by
  obtain rfl | he := List.mem_cons.mp ((access_perm hord hasc).mem_iff.mp he)
  · exact .inl rfl
  · exact .inr (List.mem_of_mem_filter he)

theorem ascending_access (hord : StrictOrder less) (hasc : Ascending less entries) :
    Ascending less (access less fresh k f entries) := by
  induction entries with
  | nil => exact List.pairwise_singleton _ _
  | cons e entries ih =>
    obtain ⟨he, hrest⟩ := List.pairwise_cons.mp hasc
    rw [access]
    split
    · next hbefore =>
      refine List.pairwise_cons.mpr ⟨?_, ih hrest⟩
      intro e' he'
      obtain rfl | he' := mem_access hord hrest he'
      · exact hbefore
      · exact he e' he'
    · split
      · next hafter =>
        refine List.pairwise_cons.mpr ⟨?_, hasc⟩
        intro e' he'
        obtain rfl | he' := List.mem_cons.mp he'
        · exact hafter
        · exact hord.trans _ _ _ hafter (he e' he')
      · exact List.pairwise_cons.mpr ⟨he, hrest⟩

theorem lookup_of_mem (hord : StrictOrder less) (hasc : Ascending less entries) {e : κ × ν}
    (he : e ∈ entries) : entries.lookup e.1 = some e.2 := by
  induction entries with
  | nil => cases he
  | cons e' entries ih =>
    obtain ⟨hfirst, hrest⟩ := List.pairwise_cons.mp hasc
    obtain rfl | he := List.mem_cons.mp he
    · rw [List.lookup_cons, beq_self_eq_true]
    · have hne : e.1 ≠ e'.1 := (hord.ne (hfirst e he)).symm
      rw [List.lookup_cons, beq_eq_false_iff_ne.mpr hne]
      exact ih hrest he

theorem lookup_access (hord : StrictOrder less) (hasc : Ascending less entries) :
    (access less fresh k f entries).lookup k = some (f ((entries.lookup k).getD fresh)) :=
  lookup_of_mem hord (ascending_access hord hasc)
    ((access_perm hord hasc).mem_iff.mpr List.mem_cons_self)

theorem lookup_access_of_ne (hord : StrictOrder less) {k' : κ} (hne : k' ≠ k) :
    (access less fresh k f entries).lookup k' = entries.lookup k' := by
  induction entries with
  | nil => simp [access, List.lookup_cons, beq_eq_false_iff_ne.mpr hne]
  | cons e entries ih =>
    rw [access]
    split
    · rw [List.lookup_cons, List.lookup_cons, ih]
    · next hbefore =>
      split
      · rw [List.lookup_cons, beq_eq_false_iff_ne.mpr hne]
      · next hafter =>
        obtain rfl : e.1 = k := hord.total _ _ (by simpa using hbefore) (by simpa using hafter)
        rw [List.lookup_cons, List.lookup_cons, beq_eq_false_iff_ne.mpr hne]

theorem mem_of_lookup {v : ν} (h : entries.lookup k = some v) : (k, v) ∈ entries := by
  obtain ⟨before, after, rfl, -⟩ := List.lookup_eq_some_iff.mp h
  simp

theorem length_access (hord : StrictOrder less) (hasc : Ascending less entries) :
    (access less fresh k f entries).length =
      if k ∈ entries.map Prod.fst then entries.length else entries.length + 1 := by
  have hnodup := nodup_keys hord hasc
  have hkeys : (erase k entries).map Prod.fst = (entries.map Prod.fst).erase k := by
    rw [hnodup.erase_eq_filter, List.filter_map]
    apply congrArg (List.map Prod.fst)
    apply List.filter_congr
    intro e _
    simp [bne, beq_eq_decide]
  have hlen := congrArg List.length hkeys
  rw [(access_perm hord hasc).length_eq, List.length_cons]
  rw [List.length_map] at hlen
  split
  · next hmem =>
    have hpos := List.length_pos_of_mem hmem
    rw [hlen, List.length_erase_of_mem hmem, List.length_map]
    rw [List.length_map] at hpos
    omega
  · next hmem => rw [hlen, List.erase_of_not_mem hmem, List.length_map]

end Ordered

end Operations

section Keys
variable {n : ℕ} {ν : Type}

def keyLess (x y : BitVec n) : Bool := decide (x.toNat < y.toNat)

theorem strictOrder_keyLess : StrictOrder (keyLess (n := n)) where
  irrefl := fun x => by simp [keyLess]
  trans := fun x y z hxy hyz => by
    simp only [keyLess, decide_eq_true_eq] at hxy hyz ⊢
    omega
  total := fun x y hxy hyx => by
    simp only [keyLess, decide_eq_false_iff_not] at hxy hyx
    exact BitVec.eq_of_toNat_eq (by omega)

theorem length_le_two_pow {entries : List (BitVec n × ν)} (hasc : Ascending keyLess entries) :
    entries.length ≤ 2 ^ n := by
  have hnodup : ((entries.map Prod.fst).map BitVec.toNat).Nodup :=
    (nodup_keys strictOrder_keyLess hasc).map fun _ _ h => BitVec.eq_of_toNat_eq h
  have hsub : (entries.map Prod.fst).map BitVec.toNat ⊆ List.range (2 ^ n) := by
    intro x hx
    obtain ⟨k, -, rfl⟩ := List.mem_map.mp hx
    exact List.mem_range.mpr k.isLt
  simpa using (List.subperm_of_subset hnodup hsub).length_le

end Keys

structure Map (n : ℕ) (ν : Type) where
  entries : List (BitVec n × ν) := []
  ascending : Ascending keyLess entries := by exact List.Pairwise.nil

namespace Map
variable {n : ℕ} {ν : Type}

def lookup (m : Map n ν) (k : BitVec n) : Option ν := m.entries.lookup k

def insert (m : Map n ν) (k : BitVec n) (v : ν) : Map n ν :=
  ⟨access keyLess v k (fun _ => v) m.entries, ascending_access strictOrder_keyLess m.ascending⟩

/-- `emplace` leaves an entry that is there. -/
def emplace (m : Map n ν) (k : BitVec n) (v : ν) : Map n ν :=
  if (m.lookup k).isSome then m else m.insert k v

def erase (m : Map n ν) (k : BitVec n) : Map n ν :=
  ⟨StdMap.erase k m.entries, ascending_erase m.ascending⟩

variable {m m' : Map n ν} {k k' : BitVec n} {v : ν}

@[simp] theorem lookup_insert_self : (m.insert k v).lookup k = some v :=
  lookup_access strictOrder_keyLess m.ascending

theorem lookup_insert_of_ne (h : k' ≠ k) : (m.insert k v).lookup k' = m.lookup k' :=
  lookup_access_of_ne strictOrder_keyLess h

theorem lookup_emplace_of_some {v' : ν} (h : m.lookup k' = some v') :
    (m.emplace k v).lookup k' = some v' := by
  rw [emplace]
  split
  · exact h
  · next hfree =>
    have hne : k' ≠ k := by
      rintro rfl
      exact hfree (by simp [h])
    rw [lookup_insert_of_ne hne, h]

theorem lookup_emplace_of_ne (h : k' ≠ k) : (m.emplace k v).lookup k' = m.lookup k' := by
  rw [emplace]
  split
  · rfl
  · exact lookup_insert_of_ne h

theorem lookup_emplace_of_none (h : m.lookup k = none) : (m.emplace k v).lookup k = some v := by
  rw [emplace, if_neg (by simp [h]), lookup_insert_self]

@[simp] theorem lookup_erase_self : (m.erase k).lookup k = none := by
  rw [lookup, List.lookup_eq_none_iff]
  intro e he
  obtain ⟨-, hne⟩ := List.mem_filter.mp he
  simpa using Ne.symm (of_decide_eq_true hne)

theorem lookup_erase_of_ne (h : k' ≠ k) : (m.erase k).lookup k' = m.lookup k' := by
  obtain ⟨entries, hasc⟩ := m
  simp only [lookup, erase, StdMap.erase]
  clear hasc
  induction entries with
  | nil => rfl
  | cons e entries ih =>
    by_cases he : e.1 = k
    · have hne : k' ≠ e.1 := he ▸ h
      rw [List.filter_cons_of_neg (by simp [he]), List.lookup_cons, beq_eq_false_iff_ne.mpr hne, ih]
    · rw [List.filter_cons_of_pos (by simp [he]), List.lookup_cons, List.lookup_cons, ih]

theorem mem_entries_iff {e : BitVec n × ν} : e ∈ m.entries ↔ m.lookup e.1 = some e.2 :=
  ⟨lookup_of_mem strictOrder_keyLess m.ascending, mem_of_lookup⟩

theorem ext_lookup (h : ∀ k, m.lookup k = m'.lookup k) : m = m' := by
  have hnodup (m : Map n ν) : m.entries.Nodup :=
    List.Nodup.of_map Prod.fst (nodup_keys strictOrder_keyLess m.ascending)
  have hperm : m.entries.Perm m'.entries := by
    rw [List.perm_ext_iff_of_nodup (hnodup m) (hnodup m')]
    intro e
    rw [mem_entries_iff, mem_entries_iff, h]
  have heq : m.entries = m'.entries := by
    refine hperm.eq_of_pairwise ?_ m.ascending m'.ascending
    intro e e' _ _ hlt hgt
    have hself := strictOrder_keyLess.trans _ _ _ hlt hgt
    rw [strictOrder_keyLess.irrefl] at hself
    cases hself
  cases m
  cases m'
  cases heq
  rfl

end Map

end StdMap

end AetherClient
