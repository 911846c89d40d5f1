import Mathlib.Data.List.AList

set_option autoImplicit false

namespace AetherClient.Tables

variable {κ α : Type}

theorem filter_eq_filter_iff {p q : α → Bool} {l : List α} :
    l.filter p = l.filter q ↔ ∀ a ∈ l, p a = q a := by
  constructor
  · intro h a ha
    have hiff : a ∈ l.filter p ↔ a ∈ l.filter q := by rw [h]
    rw [List.mem_filter, List.mem_filter] at hiff
    rw [Bool.eq_iff_iff]
    exact ⟨fun hp => (hiff.1 ⟨ha, hp⟩).2, fun hq => (hiff.2 ⟨ha, hq⟩).2⟩
  · exact List.filter_congr

theorem filterMap_map_sublist {β γ : Type} {f : α → Option β} {g : α → γ} {k : β → γ}
    (hf : ∀ x y, f x = some y → k y = g x) (xs : List α) :
    ((xs.filterMap f).map k).Sublist (xs.map g) := by
  induction xs with
  | nil => exact List.Sublist.refl _
  | cons x xs ih =>
    cases he : f x with
    | none =>
      rw [List.filterMap_cons_none he]
      exact ih.cons _
    | some y =>
      rw [List.filterMap_cons_some he, List.map_cons, List.map_cons, hf x y he]
      exact ih.cons_cons _

section Keys
variable [DecidableEq κ] {key : α → κ} {l : List α} {x : α}

theorem find_of_key (hn : (l.map key).Nodup) (hx : x ∈ l) :
    l.find? (fun y => key y = key x) = some x := by
  induction l with
  | nil => cases hx
  | cons u rest ih =>
    rw [List.map_cons, List.nodup_cons] at hn
    rcases List.mem_cons.1 hx with rfl | hx
    · simp
    · have hne : key u ≠ key x := by
        intro he
        exact hn.1 (he ▸ List.mem_map_of_mem hx)
      rw [List.find?_cons_of_neg (by simpa using hne)]
      exact ih hn.2 hx

omit [DecidableEq κ] in
theorem nodup_concat (hn : (l.map key).Nodup) (hnew : ∀ y ∈ l, key y ≠ key x) :
    ((l ++ [x]).map key).Nodup := by
  rw [List.map_append, List.map_singleton, ← List.concat_eq_append]
  refine List.Nodup.concat (fun hmem => ?_) hn
  obtain ⟨y, hy, he⟩ := List.mem_map.mp hmem
  exact hnew y hy he

theorem countP_eq_one {p : α → Bool} (hn : (l.map key).Nodup) (hx : x ∈ l) (hp : p x)
    (h : ∀ y ∈ l, p y → key y = key x) : l.countP p = 1 := by
  have hc : l.countP p = (l.map key).count (key x) := by
    rw [List.count, List.countP_map]
    apply List.countP_congr
    intro y hy
    simp only [Function.comp_apply, beq_iff_eq]
    constructor
    · exact h y hy
    · intro he
      rwa [List.inj_on_of_nodup_map hn hy hx he]
  rw [hc]
  exact List.count_eq_one_of_mem hn (List.mem_map_of_mem hx)

theorem map_at_key {l r : List α} (hn : ((l ++ x :: r).map key).Nodup) (f : α → α) :
    (l ++ x :: r).map (fun y => if key y = key x then f y else y) = l ++ f x :: r := by
  have hne : ∀ y ∈ l ++ r, key y ≠ key x := by
    rw [List.map_append, List.map_cons, List.nodup_middle, List.nodup_cons, ← List.map_append] at hn
    intro y hy he
    exact hn.1 (he ▸ List.mem_map_of_mem hy)
  have hsame : ∀ m : List α, (∀ y ∈ m, key y ≠ key x) →
      m.map (fun y => if key y = key x then f y else y) = m := by
    intro m hm
    exact (List.map_congr_left fun y hy => if_neg (hm y hy)).trans (List.map_id' m)
  rw [List.map_append, List.map_cons, if_pos rfl,
    hsame l fun y hy => hne y (List.mem_append_left r hy),
    hsame r fun y hy => hne y (List.mem_append_right l hy)]

end Keys

section Pairs
variable [DecidableEq κ] {k k' : κ}

theorem lookup_of_mem {l : List (κ × α)} (hn : (l.map Prod.fst).Nodup) {e : κ × α} (he : e ∈ l) :
    l.lookup e.1 = some e.2 := by
  obtain ⟨before, after, rfl⟩ := List.append_of_mem he
  refine List.lookup_eq_some_iff.mpr ⟨before, after, rfl, fun e' he' => ?_⟩
  rw [List.map_append, List.map_cons] at hn
  have hne := (List.nodup_append.mp hn).2.2 e'.1 (List.mem_map_of_mem he') e.1 List.mem_cons_self
  simpa using hne.symm

theorem lookup_eraseP_of_ne (h : k' ≠ k) {l : List (κ × α)} :
    (l.eraseP fun e => e.1 = k).lookup k' = l.lookup k' := by
  induction l with
  | nil => rfl
  | cons e l ih =>
    by_cases he : e.1 = k
    · have hne : k' ≠ e.1 := he ▸ h
      rw [List.eraseP_cons_of_pos (by simpa using he), List.lookup_cons,
        beq_eq_false_iff_ne.mpr hne]
    · rw [List.eraseP_cons_of_neg (by simpa using he), List.lookup_cons, List.lookup_cons, ih]

theorem lookup_eraseP_self {l : List (κ × α)} (hn : (l.map Prod.fst).Nodup) :
    (l.eraseP fun e => e.1 = k).lookup k = none := by
  induction l with
  | nil => rfl
  | cons e l ih =>
    rw [List.map_cons, List.nodup_cons] at hn
    by_cases he : e.1 = k
    · rw [List.eraseP_cons_of_pos (by simpa using he), List.lookup_eq_none_iff]
      intro e' he'
      have hne : k ≠ e'.1 := fun heq => hn.1 (he.trans heq ▸ List.mem_map_of_mem he')
      simpa using hne
    · rw [List.eraseP_cons_of_neg (by simpa using he), List.lookup_cons,
        beq_eq_false_iff_ne.mpr (Ne.symm he)]
      exact ih hn.2

end Pairs

section Values

def values (t : AList fun _ : κ => α) : List α := t.entries.map Sigma.snd

variable [DecidableEq κ] {t : AList fun _ : κ => α} {k : κ} {v : α}

theorem mem_values_of_lookup (h : t.lookup k = some v) : v ∈ values t :=
  List.mem_map_of_mem (AList.mem_lookup_iff.mp h)

theorem values_perm (h : t.lookup k = some v) : (values t).Perm (v :: values (t.erase k)) := by
  have hk : k ∈ t.entries.keys := AList.lookup_isSome.mp (by rw [h]; rfl)
  obtain ⟨u, l, r, hl, he, hr⟩ := List.exists_of_kerase hk
  have hu : u = v := by
    have hm : (⟨k, u⟩ : Sigma fun _ : κ => α) ∈ t.entries := by
      rw [he]
      exact List.mem_append_right l List.mem_cons_self
    exact Option.some.inj ((AList.mem_lookup_iff.mpr hm).symm.trans h)
  have herase : (t.erase k).entries = l ++ r := hr
  rw [values, values, he, herase, List.map_append, List.map_append, List.map_cons, hu]
  exact List.perm_middle

theorem values_insert : values (t.insert k v) = v :: values (t.erase k) := by
  rw [values, AList.entries_insert]
  rfl

theorem values_erase_of_lookup_none (h : t.lookup k = none) : values (t.erase k) = values t := by
  have hk : k ∉ t.entries.keys := AList.lookup_eq_none.mp h
  have herase : (t.erase k).entries = t.entries := List.kerase_of_notMem_keys hk
  rw [values, values, herase]

section Parts
variable {β : Type} {f : α → Option β}

theorem filterMap_cons_toList (l : List α) :
    (v :: l).filterMap f = (f v).toList ++ l.filterMap f := by
  cases hv : f v <;> simp [hv]

theorem parts_erase (t : AList fun _ : κ => α) (k : κ) :
    (((t.lookup k).bind f).toList ++ (values (t.erase k)).filterMap f).Perm
      ((values t).filterMap f) := by
  cases h : t.lookup k with
  | none =>
    rw [values_erase_of_lookup_none h]
    exact List.Perm.refl _
  | some v =>
    have hp := (values_perm h).filterMap f
    rw [filterMap_cons_toList] at hp
    exact hp.symm

theorem parts_insert (t : AList fun _ : κ => α) (k : κ) (v : α) :
    (((t.lookup k).bind f).toList ++ (values (t.insert k v)).filterMap f).Perm
      ((f v).toList ++ (values t).filterMap f) := by
  rw [values_insert, filterMap_cons_toList]
  exact (List.perm_append_comm_assoc _ _ _).trans ((parts_erase t k).append_left _)

end Parts

end Values
end AetherClient.Tables
