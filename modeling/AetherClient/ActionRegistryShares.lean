import AetherClient.ActionRegistry

set_option autoImplicit false

namespace AetherClient.ActionRegistry

variable {w w' : ActionRegistry} {e e' : ActionIndex} {i a b s t : ℕ} {it : IndexShare}
  {o : ActionObject} {extra extra' : List ℕ}

structure Balanced (w : ActionRegistry) (extra : List ℕ) : Prop where
  nodup : (w.actionList.map ActionIndex.iterator).Nodup
  below : ∀ e ∈ w.actionList, e.iterator < w.fresh
  counter : ∀ e ∈ w.actionList, e.counter = extra.count e.iterator + w.held.count e.iterator
  shared : ∀ e ∈ w.actionList, 0 < e.counter
  known : ∀ i, 0 < extra.count i + w.held.count i → ∃ e ∈ w.actionList, e.iterator = i

def indexOf (w : ActionRegistry) (a : ℕ) : Option ℕ := (w.actions.lookup a).bind ActionObject.index

structure Pointed (w : ActionRegistry) : Prop where
  action : ∀ e ∈ w.actionList, ∀ a, e.action = some a ↔ w.indexOf a = some e.iterator
  identity : ∀ a o, w.actions.lookup a = some o → ∀ i ∈ o.index, o.identity = i
  calls : ∀ l ∈ w.updates, (l.called ++ l.rest).Nodup ∧ l.rest ⊆ l.replica

theorem mem_held_of_share (h : w.shares.lookup s = some (some i)) : i ∈ w.held := by
  have hm : i ∈ (Tables.values w.shares).filterMap id :=
    List.mem_filterMap.mpr ⟨some i, Tables.mem_values_of_lookup h, rfl⟩
  exact List.mem_append_left _ (List.mem_append_left _ hm)

theorem mem_held_of_indexOf (h : w.indexOf a = some i) : i ∈ w.held := by
  obtain ⟨o, ho, hi⟩ := Option.bind_eq_some_iff.mp h
  have hm : i ∈ (Tables.values w.actions).filterMap ActionObject.index :=
    List.mem_filterMap.mpr ⟨o, Tables.mem_values_of_lookup ho, hi⟩
  exact List.mem_append_left _ (List.mem_append_right _ hm)

theorem mem_held_of_update {l : UpdateLoop} (hl : l ∈ w.updates) (hi : i ∈ l.replica) :
    i ∈ w.held :=
  List.mem_append_right _ (List.mem_flatMap.mpr ⟨l, hl, hi⟩)

theorem indexOf_setObject (x : ℕ) :
    (w.setObject a o).indexOf x = if x = a then o.index else w.indexOf x := by
  unfold indexOf setObject
  split
  · next h => rw [h, AList.lookup_insert, Option.bind_some]
  · next h => rw [AList.lookup_insert_ne h]

theorem identity_setObject
    (h : ∀ x c, w.actions.lookup x = some c → ∀ i ∈ c.index, c.identity = i)
    (ho : ∀ i ∈ o.index, o.identity = i) :
    ∀ x c, (w.setObject a o).actions.lookup x = some c → ∀ i ∈ c.index, c.identity = i := by
  intro x c hc
  by_cases hx : x = a
  · rw [setObject, hx, AList.lookup_insert] at hc
    cases hc
    exact ho
  · rw [setObject, AList.lookup_insert_ne hx] at hc
    exact h x c hc

theorem count_held_setShare (w : ActionRegistry) (s : ℕ) (it : IndexShare) (i : ℕ) :
    ((w.shares.lookup s).bind id).toList.count i + (w.setShare s it).held.count i =
      it.toList.count i + w.held.count i := by
  have hp := (Tables.parts_insert (f := id) w.shares s it).count_eq i
  rw [List.count_append, List.count_append] at hp
  change _ = it.toList.count i + _ at hp
  simp only [held, setShare, List.count_append]
  omega

theorem count_held_eraseShare (i : ℕ) :
    ((w.shares.lookup s).bind id).toList.count i +
      { w with shares := w.shares.erase s }.held.count i = w.held.count i := by
  have hp := (Tables.parts_erase (f := id) w.shares s).count_eq i
  simp only [List.count_append] at hp
  simp only [held, List.count_append]
  omega

theorem count_held_setObject (i : ℕ) :
    (w.indexOf a).toList.count i + (w.setObject a o).held.count i =
      o.index.toList.count i + w.held.count i := by
  have hp := (Tables.parts_insert (f := ActionObject.index) w.actions a o).count_eq i
  simp only [List.count_append] at hp
  simp only [held, setObject, indexOf, List.count_append]
  omega

theorem count_held_eraseAction (i : ℕ) :
    (w.indexOf a).toList.count i +
      { w with actions := w.actions.erase a }.held.count i = w.held.count i := by
  have hp := (Tables.parts_erase (f := ActionObject.index) w.actions a).count_eq i
  simp only [List.count_append] at hp
  simp only [held, indexOf, List.count_append]
  omega

theorem mem_modify {f : ActionIndex → ActionIndex} (h : e' ∈ (w.modify i f).actionList) :
    ∃ e ∈ w.actionList, e' = if e.iterator = i then f e else e := by
  obtain ⟨e, he, rfl⟩ := List.mem_map.mp h
  exact ⟨e, he, rfl⟩

theorem map_iterator_modify {f : ActionIndex → ActionIndex} (hf : ∀ e, (f e).iterator = e.iterator) :
    (w.modify i f).actionList.map ActionIndex.iterator = w.actionList.map ActionIndex.iterator := by
  rw [modify, List.map_map]
  apply List.map_congr_left
  intro e _
  rw [Function.comp_apply]
  split
  · exact hf e
  · rfl

theorem exists_modify {f : ActionIndex → ActionIndex} (hf : ∀ e, (f e).iterator = e.iterator)
    {j : ℕ} (h : ∃ e ∈ w.actionList, e.iterator = j) :
    ∃ e ∈ (w.modify i f).actionList, e.iterator = j := by
  obtain ⟨e, he, rfl⟩ := h
  refine ⟨_, List.mem_map_of_mem he, ?_⟩
  split
  · exact hf e
  · rfl

theorem Balanced.find (hb : Balanced w extra) (hi : 0 < extra.count i + w.held.count i) :
    ∃ e ∈ w.actionList, w.find i = some e ∧ e.iterator = i := by
  obtain ⟨e, he, rfl⟩ := hb.known i hi
  exact ⟨e, he, Tables.find_of_key hb.nodup he, rfl⟩

theorem Balanced.transfer (hb : Balanced w extra) (hl : w'.actionList = w.actionList)
    (hf : w.fresh ≤ w'.fresh)
    (hc : ∀ i, extra'.count i + w'.held.count i = extra.count i + w.held.count i) :
    Balanced w' extra' where
  nodup := hl ▸ hb.nodup
  below := by
    intro e he
    have hlt := hb.below e (hl ▸ he)
    omega
  counter := by
    intro e he
    rw [hc]
    exact hb.counter e (hl ▸ he)
  shared := fun e he => hb.shared e (hl ▸ he)
  known := by
    intro i hi
    rw [hc] at hi
    rw [hl]
    exact hb.known i hi

structure Keeps (w w' : ActionRegistry) : Prop where
  fresh : w'.fresh = w.fresh
  actions : w'.actions = w.actions
  shares : w'.shares = w.shares
  updates : w'.updates = w.updates
  entries : ∀ e' ∈ w'.actionList, ∃ e ∈ w.actionList,
    e.iterator = e'.iterator ∧ e.action = e'.action

theorem Keeps.refl (w : ActionRegistry) : Keeps w w :=
  ⟨rfl, rfl, rfl, rfl, fun e he => ⟨e, he, rfl, rfl⟩⟩

theorem Keeps.trans {u : ActionRegistry} (h : Keeps w w') (h' : Keeps w' u) : Keeps w u where
  fresh := h'.fresh.trans h.fresh
  actions := h'.actions.trans h.actions
  shares := h'.shares.trans h.shares
  updates := h'.updates.trans h.updates
  entries := by
    intro e he
    obtain ⟨e₁, he₁, hi₁, ha₁⟩ := h'.entries e he
    obtain ⟨e₂, he₂, hi₂, ha₂⟩ := h.entries e₁ he₁
    exact ⟨e₂, he₂, hi₂.trans hi₁, ha₂.trans ha₁⟩

theorem Keeps.held (h : Keeps w w') : w'.held = w.held := by
  unfold ActionRegistry.held
  rw [h.actions, h.shares, h.updates]

theorem Keeps.pointed (h : Keeps w w') (hp : Pointed w) : Pointed w' where
  action := by
    intro e he a
    obtain ⟨e₀, he₀, hi, ha⟩ := h.entries e he
    rw [← ha, ← hi, indexOf, h.actions]
    exact hp.action e₀ he₀ a
  identity := by
    rw [h.actions]
    exact hp.identity
  calls := by
    rw [h.updates]
    exact hp.calls

theorem keeps_modify {f : ActionIndex → ActionIndex} (hi : ∀ e, (f e).iterator = e.iterator)
    (ha : ∀ e, (f e).action = e.action) : Keeps w (w.modify i f) := by
  refine ⟨rfl, rfl, rfl, rfl, ?_⟩
  intro e' he'
  obtain ⟨e, he, rfl⟩ := mem_modify he'
  refine ⟨e, he, ?_⟩
  split
  · exact ⟨(hi e).symm, (ha e).symm⟩
  · exact ⟨rfl, rfl⟩

theorem Balanced.modify {f : ActionIndex → ActionIndex} (hb : Balanced w extra)
    (he : e ∈ w.actionList) (hi : ∀ e, (f e).iterator = e.iterator)
    (hself : (f e).counter = extra'.count e.iterator + w.held.count e.iterator)
    (hpos : 0 < (f e).counter)
    (hothers : ∀ j, j ≠ e.iterator → extra'.count j = extra.count j) :
    Balanced (w.modify e.iterator f) extra' where
  nodup := (map_iterator_modify (w := w) hi).symm ▸ hb.nodup
  below := by
    intro e' he'
    obtain ⟨c, hc, rfl⟩ := mem_modify he'
    have hlt := hb.below c hc
    split
    · rw [hi]
      exact hlt
    · exact hlt
  counter := by
    intro e' he'
    obtain ⟨c, hc, rfl⟩ := mem_modify he'
    split
    · next h =>
      obtain rfl := List.inj_on_of_nodup_map hb.nodup hc he h
      rw [hi]
      exact hself
    · next h =>
      rw [hothers _ h]
      exact hb.counter c hc
  shared := by
    intro e' he'
    obtain ⟨c, hc, rfl⟩ := mem_modify he'
    split
    · next h =>
      obtain rfl := List.inj_on_of_nodup_map hb.nodup hc he h
      exact hpos
    · exact hb.shared c hc
  known := by
    intro j hj
    apply exists_modify hi
    by_cases h : j = e.iterator
    · exact ⟨e, he, h.symm⟩
    · rw [hothers j h] at hj
      exact hb.known j hj

theorem Balanced.acquire (hb : Balanced w extra)
    (hs : ∀ i, it = some i → 0 < extra.count i + w.held.count i) :
    ∃ w', w.acquire it = some w' ∧ Balanced w' (it.toList ++ extra) ∧ Keeps w w' := by
  cases it with
  | none => exact ⟨w, rfl, hb, Keeps.refl w⟩
  | some i =>
    obtain ⟨e, he, hf, rfl⟩ := hb.find (hs i rfl)
    have hk : Keeps w (w.modify e.iterator fun e => { e with counter := e.counter + 1 }) :=
      keeps_modify (fun _ => rfl) fun _ => rfl
    refine ⟨_, by rw [ActionRegistry.acquire, hf]; rfl, ?_, hk⟩
    apply hb.modify he
    case hi => exact fun _ => rfl
    case hself =>
      have hc := hb.counter e he
      show e.counter + 1 = List.count e.iterator (e.iterator :: extra) + _
      rw [List.count_cons_self]
      omega
    case hpos => exact Nat.succ_pos _
    case hothers => exact fun j hj => List.count_cons_of_ne (Ne.symm hj)

theorem Balanced.release (hb : Balanced w (it.toList ++ extra)) :
    ∃ w', w.release it = some w' ∧ Balanced w' extra ∧ Keeps w w' := by
  cases it with
  | none => exact ⟨w, rfl, hb, Keeps.refl w⟩
  | some i =>
    change Balanced w (i :: extra) at hb
    obtain ⟨e, he, hf, rfl⟩ := hb.find (i := i) (by rw [List.count_cons_self]; omega)
    have hc := hb.counter e he
    rw [List.count_cons_self] at hc
    have hothers : ∀ j, j ≠ e.iterator → extra.count j = (e.iterator :: extra).count j :=
      fun j hj => (List.count_cons_of_ne (Ne.symm hj)).symm
    by_cases hone : e.counter = 1
    · have hk : Keeps w { w with
          actionList := w.actionList.filter fun c => c.iterator ≠ e.iterator } :=
        ⟨rfl, rfl, rfl, rfl, fun c hc => ⟨c, List.mem_of_mem_filter hc, rfl, rfl⟩⟩
      refine ⟨_, by simp [ActionRegistry.release, hf, hone], ?_, hk⟩
      constructor
      case nodup => exact hb.nodup.sublist (List.filter_sublist.map _)
      case below => exact fun c hc => hb.below c (List.mem_of_mem_filter hc)
      case counter =>
        intro c hc
        obtain ⟨hc, hne⟩ := List.mem_filter.mp hc
        rw [hothers _ (of_decide_eq_true hne)]
        exact hb.counter c hc
      case shared => exact fun c hc => hb.shared c (List.mem_of_mem_filter hc)
      case known =>
        intro j hj
        change 0 < extra.count j + w.held.count j at hj
        obtain ⟨c, hc, rfl⟩ := hb.known j (by rw [List.count_cons]; omega)
        refine ⟨c, List.mem_filter.mpr ⟨hc, decide_eq_true ?_⟩, rfl⟩
        intro h
        rw [h] at hj
        omega
    · have hk : Keeps w (w.modify e.iterator fun e => { e with counter := e.counter - 1 }) :=
        keeps_modify (fun _ => rfl) fun _ => rfl
      have hzero : e.counter ≠ 0 := by omega
      refine ⟨_, by simp [ActionRegistry.release, hf, hone, hzero], ?_, hk⟩
      apply hb.modify he
      case hi => exact fun _ => rfl
      case hself =>
        show e.counter - 1 = _
        omega
      case hpos =>
        show 0 < e.counter - 1
        omega
      case hothers => exact hothers

theorem Balanced.releaseAll {is : List ℕ} (hb : Balanced w (is ++ extra)) :
    ∃ w', w.releaseAll is = some w' ∧ Balanced w' extra ∧ Keeps w w' := by
  induction is generalizing w with
  | nil => exact ⟨w, rfl, hb, Keeps.refl w⟩
  | cons i is ih =>
    have hb₁ : Balanced w ((some i : IndexShare).toList ++ (is ++ extra)) := hb
    obtain ⟨u, hu, hbu, hku⟩ := hb₁.release
    obtain ⟨w', hr, hb', hk'⟩ := ih hbu
    exact ⟨w', by simp [ActionRegistry.releaseAll, hu, hr], hb', hku.trans hk'⟩

end AetherClient.ActionRegistry
