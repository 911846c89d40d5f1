import AetherClient.ActionRegistryShares

set_option autoImplicit false

namespace AetherClient.ActionRegistry
open Runs

variable {w w' : ActionRegistry} {e e' : ActionIndex} {i a b s t : ℕ} {it : IndexShare}
  {o : ActionObject} {extra extra' : List ℕ}

structure Inv (w : ActionRegistry) : Prop where
  balanced : Balanced w []
  pointed : Pointed w

theorem inv_initial : Inv {} where
  balanced := by
    constructor
    case nodup => exact List.nodup_nil
    case known => exact fun i hi => absurd hi (Nat.lt_irrefl 0)
    all_goals exact fun e he => absurd he List.not_mem_nil
  pointed := by
    constructor
    case identity => exact fun a o h => by cases h
    all_goals exact fun e he => absurd he List.not_mem_nil

theorem Inv.mem_held (hw : Inv w) (hi : i ∈ w.held) : ∃ e ∈ w.actionList, e.iterator = i := by
  apply hw.balanced.known
  have hpos := List.count_pos_iff.mpr hi
  omega

theorem Inv.count_fresh (hw : Inv w) : w.held.count w.fresh = 0 := by
  rw [List.count_eq_zero]
  intro hm
  obtain ⟨e, he, hi⟩ := hw.mem_held hm
  have hlt := hw.balanced.below e he
  omega

theorem Inv.construct (hw : Inv w) (ha : w.indexOf a = none) :
    Inv ((w.register a).setObject a ⟨some w.fresh, w.fresh⟩) := by
  have hcount : ∀ j, ((w.register a).setObject a ⟨some w.fresh, w.fresh⟩).held.count j =
      [w.fresh].count j + w.held.count j := by
    intro j
    have h := count_held_setObject (w := w.register a) (a := a) (o := ⟨some w.fresh, w.fresh⟩) j
    have hnone : (w.register a).indexOf a = none := ha
    rw [hnone] at h
    exact (Nat.zero_add _).symm.trans h
  have hmem : ∀ e ∈ (w.register a).actionList, e ∈ w.actionList ∧ e.iterator ≠ w.fresh ∨
      e = ⟨w.fresh, 1, some a⟩ := by
    intro e he
    obtain he | he := List.mem_append.mp he
    · exact Or.inl ⟨he, Nat.ne_of_lt (hw.balanced.below e he)⟩
    · exact Or.inr (List.mem_singleton.mp he)
  constructor
  case balanced =>
    constructor
    case nodup =>
      exact Tables.nodup_concat hw.balanced.nodup fun e he => Nat.ne_of_lt (hw.balanced.below e he)
    case below =>
      intro e he
      show e.iterator < w.fresh + 1
      obtain ⟨he, -⟩ | rfl := hmem e he
      · have hlt := hw.balanced.below e he
        omega
      · exact Nat.lt_succ_self _
    case counter =>
      intro e he
      rw [hcount]
      obtain ⟨he, hne⟩ | rfl := hmem e he
      · rw [hw.balanced.counter e he, List.count_cons_of_ne (Ne.symm hne)]
        simp
      · rw [hw.count_fresh, List.count_cons_self]
        rfl
    case shared =>
      intro e he
      obtain ⟨he, -⟩ | rfl := hmem e he
      · exact hw.balanced.shared e he
      · exact Nat.one_pos
    case known =>
      intro j hj
      rw [hcount] at hj
      by_cases h : w.fresh = j
      · exact ⟨_, List.mem_append_right _ List.mem_cons_self, h⟩
      · rw [List.count_cons_of_ne h] at hj
        obtain ⟨e, he, hi⟩ := hw.balanced.known j (by simpa using hj)
        exact ⟨e, List.mem_append_left _ he, hi⟩
  case pointed =>
    have hold : ∀ x, w.indexOf x ≠ some w.fresh := by
      intro x hx
      have hpos := List.count_pos_iff.mpr (mem_held_of_indexOf hx)
      have hzero := hw.count_fresh
      omega
    constructor
    case action =>
      intro e he x
      rw [indexOf_setObject]
      show _ ↔ (if x = a then some w.fresh else w.indexOf x) = _
      obtain ⟨he, hne⟩ | rfl := hmem e he
      · rw [hw.pointed.action e he]
        split
        · next h =>
          rw [h, ha]
          simpa using Ne.symm hne
        · rfl
      · split
        · next h => simp [h]
        · next h => simpa [Ne.symm h] using hold x
    case identity =>
      apply identity_setObject hw.pointed.identity
      exact fun i hi => Option.some.inj hi
    case calls => exact hw.pointed.calls

theorem Inv.constructDefault (hw : Inv w) (ha : w.indexOf a = none) :
    Inv ({ w with fresh := w.fresh + 1 }.setObject a ⟨none, w.fresh⟩) := by
  constructor
  case balanced =>
    refine Balanced.transfer hw.balanced rfl (Nat.le_succ _) ?_
    intro i
    have h := count_held_setObject (w := { w with fresh := w.fresh + 1 }) (a := a)
      (o := ⟨none, w.fresh⟩) i
    have hnone : { w with fresh := w.fresh + 1 }.indexOf a = none := ha
    rw [hnone] at h
    exact h
  case pointed =>
    constructor
    case action =>
      intro e he x
      rw [indexOf_setObject, hw.pointed.action e he]
      split
      · next h => simp [h, ha]
      · rfl
    case identity =>
      apply identity_setObject hw.pointed.identity
      exact fun i hi => by cases hi
    case calls => exact hw.pointed.calls

theorem Balanced.setAction (hb : Balanced w extra) (x : Option ℕ) {it : IndexShare}
    (hs : ∀ i ∈ it, 0 < extra.count i + w.held.count i) :
    ∃ w', w.setAction x it = some w' ∧ Balanced w' extra ∧ w'.actions = w.actions ∧
      w'.updates = w.updates ∧ w'.held = w.held ∧
      ∀ e' ∈ w'.actionList, ∃ e ∈ w.actionList, e'.iterator = e.iterator ∧
        e'.action = if it = some e.iterator then x else e.action := by
  cases it with
  | none => exact ⟨w, rfl, hb, rfl, rfl, rfl, fun e he => ⟨e, he, rfl, rfl⟩⟩
  | some i =>
    obtain ⟨e, he, hf, rfl⟩ := hb.find (hs i rfl)
    refine ⟨w.modify e.iterator fun c => { c with action := x }, ?_, ?_, rfl, rfl, rfl, ?_⟩
    · rw [ActionRegistry.setAction, hf]
      rfl
    · exact hb.modify he (fun _ => rfl) (hb.counter e he) (hb.shared e he) fun _ _ => rfl
    · intro e' he'
      obtain ⟨c, hc, rfl⟩ := mem_modify he'
      refine ⟨c, hc, ?_⟩
      by_cases h : c.iterator = e.iterator
      · simp [h]
      · simp [h, Ne.symm h]

theorem Inv.moveAction (hw : Inv w) (ha : w.indexOf a = none) (hb : w.actions.lookup b = some o)
    (hab : a ≠ b) : ∃ w', w.moveAction a b o = some w' ∧ Inv w' := by
  have hob : w.indexOf b = o.index := by rw [indexOf, hb, Option.bind_some]
  have hcount : ∀ i, ((w.setObject a o).setObject b { o with index := none }).held.count i =
      w.held.count i := by
    intro i
    have h₁ := count_held_setObject (w := w) (a := a) (o := o) i
    have h₂ := count_held_setObject (w := w.setObject a o) (a := b) (o := { o with index := none }) i
    rw [indexOf_setObject, if_neg (Ne.symm hab), hob] at h₂
    rw [ha] at h₁
    simp only [Option.toList_none, List.count_nil] at h₁ h₂
    omega
  have hbal : Balanced ((w.setObject a o).setObject b { o with index := none }) [] :=
    hw.balanced.transfer rfl (Nat.le_refl _) fun i => by rw [hcount]
  obtain ⟨w', hs, hbal', hact, hupd, -, hent⟩ := hbal.setAction (some a) (show ∀ i ∈ o.index, _ by
    intro i hi
    rw [hcount]
    have hpos := List.count_pos_iff.mpr (mem_held_of_indexOf (hob.trans hi))
    omega)
  refine ⟨w', hs, hbal', ?_⟩
  have hindex : ∀ x, w'.indexOf x = if x = b then none else if x = a then o.index else w.indexOf x := by
    intro x
    have h : w'.indexOf x = ((w.setObject a o).setObject b { o with index := none }).indexOf x := by
      rw [indexOf, hact]
      rfl
    rw [h, indexOf_setObject, indexOf_setObject]
  constructor
  case action =>
    intro e' he' x
    obtain ⟨e, he, hi, haction⟩ := hent e' he'
    rw [hindex, haction, hi]
    have hx := hw.pointed.action e he x
    have hxb := hw.pointed.action e he b
    have hxa := hw.pointed.action e he a
    grind
  case identity =>
    rw [hact]
    apply identity_setObject
    · exact identity_setObject hw.pointed.identity (hw.pointed.identity b o hb)
    · exact fun i hi => by cases hi
  case calls => rw [hupd]; exact hw.pointed.calls

theorem Inv.destroy (hw : Inv w) (ha : w.actions.lookup a = some o) :
    ∃ w', w.step (.destroy a) = some w' ∧ Inv w' := by
  have hoa : w.indexOf a = o.index := by rw [indexOf, ha, Option.bind_some]
  obtain ⟨u, hs, hbu, hact, hupd, hheld, hent⟩ := hw.balanced.setAction none (show ∀ i ∈ o.index, _ by
    intro i hi
    have hpos := List.count_pos_iff.mpr (mem_held_of_indexOf (hoa.trans hi))
    omega)
  have hou : u.indexOf a = o.index := by rw [indexOf, hact, ← indexOf, hoa]
  have hbal : Balanced { u with actions := u.actions.erase a } (o.index.toList ++ []) := by
    refine hbu.transfer rfl (Nat.le_refl _) ?_
    intro i
    have h := count_held_eraseAction (w := u) (a := a) i
    rw [hou] at h
    rw [List.append_nil, h]
    exact (Nat.zero_add _).symm
  obtain ⟨w', hr, hb', hk⟩ := hbal.release
  refine ⟨w', by simp only [step, ha, hs, Option.bind_some, hr], hb', hk.pointed ?_⟩
  have hindex : ∀ x, { u with actions := u.actions.erase a }.indexOf x =
      if x = a then none else w.indexOf x := by
    intro x
    unfold indexOf
    rw [← hact]
    split
    · next h => rw [h, AList.lookup_erase, Option.bind_none]
    · next h => rw [AList.lookup_erase_ne h]
  constructor
  case action =>
    intro e' he' x
    obtain ⟨e, he, hi, haction⟩ := hent e' he'
    rw [hindex, haction, hi]
    have hx := hw.pointed.action e he x
    have hxa := hw.pointed.action e he a
    grind
  case identity =>
    intro x c hc
    change (u.actions.erase a).lookup x = some c at hc
    by_cases hx : x = a
    · rw [hx, AList.lookup_erase] at hc
      cases hc
    · rw [AList.lookup_erase_ne hx, hact] at hc
      exact hw.pointed.identity x c hc
  case calls =>
    show ∀ l ∈ u.updates, _
    rw [hupd]
    exact hw.pointed.calls

theorem Pointed.setShare (hp : Pointed w) : Pointed (w.setShare s it) :=
  ⟨hp.action, hp.identity, hp.calls⟩

theorem share_held (ht : w.shares.lookup t = some it) :
    ∀ i, it = some i → 0 < ([] : List ℕ).count i + w.held.count i := by
  intro i hi
  have hpos := List.count_pos_iff.mpr (mem_held_of_share (hi ▸ ht))
  omega

theorem Inv.putCopy (hw : Inv w) (hs : (w.shares.lookup s).bind id = none)
    (hit : ∀ i, it = some i → 0 < ([] : List ℕ).count i + w.held.count i) :
    ∃ w', (w.acquire it).map (fun w' => w'.setShare s it) = some w' ∧ Inv w' := by
  obtain ⟨u, hu, hb, hk⟩ := hw.balanced.acquire hit
  refine ⟨u.setShare s it, by rw [hu]; rfl, ?_, (hk.pointed hw.pointed).setShare⟩
  refine Balanced.transfer hb rfl (Nat.le_refl _) ?_
  intro i
  have h := count_held_setShare u s it i
  rw [hk.shares, hs] at h
  rw [List.append_nil]
  exact h

theorem Inv.putMoved (hw : Inv w) (hs : (w.shares.lookup s).bind id = none)
    (ht : w.shares.lookup t = some it) (hst : s ≠ t) :
    Inv ((w.setShare s it).setShare t none) := by
  refine ⟨?_, hw.pointed.setShare.setShare⟩
  refine hw.balanced.transfer rfl (Nat.le_refl _) ?_
  intro i
  have h₁ := count_held_setShare w s it i
  have h₂ := count_held_setShare (w.setShare s it) t none i
  have hlookup : (w.setShare s it).shares.lookup t = some it := by
    rw [setShare, AList.lookup_insert_ne (Ne.symm hst), ht]
  rw [hs] at h₁
  rw [hlookup] at h₂
  change it.toList.count i + _ = 0 + _ at h₂
  change 0 + _ = _ at h₁
  omega

theorem Inv.newShare (hw : Inv w) (hs : (w.shares.lookup s).bind id = none) :
    Inv (w.setShare s none) := by
  refine ⟨?_, hw.pointed.setShare⟩
  refine hw.balanced.transfer rfl (Nat.le_refl _) ?_
  intro i
  have h := count_held_setShare w s none i
  rw [hs] at h
  exact h

theorem Inv.destroyShare (hw : Inv w) (hs : w.shares.lookup s = some it) :
    ∃ w', { w with shares := w.shares.erase s }.release it = some w' ∧ Inv w' := by
  have hbal : Balanced { w with shares := w.shares.erase s } (it.toList ++ []) := by
    refine hw.balanced.transfer rfl (Nat.le_refl _) ?_
    intro i
    have h := count_held_eraseShare (w := w) (s := s) i
    rw [hs] at h
    rw [List.append_nil]
    exact h.trans (Nat.zero_add _).symm
  obtain ⟨w', hr, hb', hk⟩ := hbal.release
  exact ⟨w', hr, hb', hk.pointed ⟨hw.pointed.action, hw.pointed.identity, hw.pointed.calls⟩⟩

theorem Inv.replicate (hw : Inv w) : Inv w.replicate := by
  have hheld : ∀ i, w.replicate.held.count i =
      (w.actionList.map ActionIndex.iterator).count i + w.held.count i := by
    intro i
    simp only [held, ActionRegistry.replicate, List.flatMap_cons, List.count_append]
    omega
  have hmem : ∀ e' ∈ w.replicate.actionList, ∃ e ∈ w.actionList,
      e' = { e with counter := e.counter + 1 } := by
    intro e' he'
    obtain ⟨e, he, rfl⟩ := List.mem_map.mp he'
    exact ⟨e, he, rfl⟩
  constructor
  case balanced =>
    constructor
    case nodup =>
      have hmap : w.replicate.actionList.map ActionIndex.iterator =
          w.actionList.map ActionIndex.iterator := List.map_map
      rw [hmap]
      exact hw.balanced.nodup
    case below =>
      intro e' he'
      obtain ⟨e, he, rfl⟩ := hmem e' he'
      exact hw.balanced.below e he
    case counter =>
      intro e' he'
      obtain ⟨e, he, rfl⟩ := hmem e' he'
      have hc := hw.balanced.counter e he
      have hone := List.count_eq_one_of_mem hw.balanced.nodup (List.mem_map_of_mem he)
      rw [hheld]
      dsimp only
      omega
    case shared =>
      intro e' he'
      obtain ⟨e, he, rfl⟩ := hmem e' he'
      exact Nat.succ_pos _
    case known =>
      intro i hi
      have hex : ∃ e ∈ w.actionList, e.iterator = i := by
        by_cases h : i ∈ w.actionList.map ActionIndex.iterator
        · exact List.mem_map.mp h
        · rw [hheld, List.count_eq_zero.mpr h, Nat.zero_add] at hi
          exact hw.balanced.known i hi
      obtain ⟨e, he, rfl⟩ := hex
      exact ⟨_, List.mem_map_of_mem he, rfl⟩
  case pointed =>
    constructor
    case action =>
      intro e' he' x
      obtain ⟨e, he, rfl⟩ := hmem e' he'
      exact hw.pointed.action e he x
    case identity => exact hw.pointed.identity
    case calls =>
      intro l hl
      obtain rfl | hl := List.mem_cons.mp hl
      · exact ⟨hw.balanced.nodup, List.Subset.refl _⟩
      · exact hw.pointed.calls l hl

theorem Inv.advance {l l' : UpdateLoop} {loops : List UpdateLoop} (hw : Inv w)
    (hu : w.updates = l :: loops) (hr : l'.replica = l.replica)
    (hn : (l'.called ++ l'.rest).Nodup) (hsub : l'.rest ⊆ l'.replica) :
    Inv { w with updates := l' :: loops } := by
  constructor
  case balanced =>
    refine hw.balanced.transfer rfl (Nat.le_refl _) ?_
    intro i
    simp only [held, hu, List.flatMap_cons, hr]
  case pointed =>
    refine ⟨hw.pointed.action, hw.pointed.identity, ?_⟩
    intro m hm
    obtain rfl | hm := List.mem_cons.mp hm
    · exact ⟨hn, hsub⟩
    · exact hw.pointed.calls m (hu ▸ List.mem_cons_of_mem _ hm)

theorem Inv.callNext (hw : Inv w) : ∃ w', w.callNext = some w' ∧ Inv w' := by
  unfold ActionRegistry.callNext
  split
  · next replica i rest called loops hu =>
    obtain ⟨hn, hsub⟩ := hw.pointed.calls _ (hu ▸ List.mem_cons_self)
    have hi : i ∈ w.held := mem_held_of_update (hu ▸ List.mem_cons_self) (hsub List.mem_cons_self)
    obtain ⟨e, he, hf, rfl⟩ := hw.balanced.find (i := i) (by
      have hpos := List.count_pos_iff.mpr hi
      omega)
    have hrest : rest ⊆ replica := fun j hj => hsub (List.mem_cons_of_mem _ hj)
    rw [hf, Option.bind_some]
    cases haction : e.action with
    | none =>
      refine ⟨_, rfl, hw.advance hu rfl ?_ hrest⟩
      exact hn.sublist ((List.sublist_cons_self _ _).append_left called)
    | some a =>
      obtain ⟨o, ho, hindex⟩ := Option.bind_eq_some_iff.mp ((hw.pointed.action e he a).mp haction)
      have hid := hw.pointed.identity a o ho _ hindex
      dsimp only
      rw [ho]
      refine ⟨_, rfl, hw.advance hu rfl ?_ hrest⟩
      rw [hid, List.append_assoc]
      exact hn
  · exact ⟨w, rfl, hw⟩

theorem Inv.endUpdate (hw : Inv w) : ∃ w', w.endUpdate = some w' ∧ Inv w' := by
  unfold ActionRegistry.endUpdate
  split
  · next replica called loops hu =>
    have hbal : Balanced { w with updates := loops } (replica ++ []) := by
      refine hw.balanced.transfer rfl (Nat.le_refl _) ?_
      intro i
      simp only [held, hu, List.flatMap_cons, List.count_append, List.count_nil]
      omega
    obtain ⟨w', hr, hb', hk⟩ := hbal.releaseAll
    refine ⟨w', hr, hb', hk.pointed ⟨hw.pointed.action, hw.pointed.identity, ?_⟩⟩
    exact fun l hl => hw.pointed.calls l (hu ▸ List.mem_cons_of_mem _ hl)
  · exact ⟨w, rfl, hw⟩

theorem bind_of_lookup_none {α : Type} {f : α → IndexShare} {x : Option α} (h : x = none) :
    x.bind f = none := by rw [h, Option.bind_none]

theorem unshared {old : IndexShare}
    (hr : s ≠ t → ∀ i, w.shares.lookup s = some (some i) → w.shares.lookup t = none)
    (hst : s ≠ t) (hs : w.shares.lookup s = some old) (ht : w.shares.lookup t = some it) :
    (w.shares.lookup s).bind id = none := by
  cases old with
  | none => rw [hs, Option.bind_some, id]
  | some i =>
    rw [hr hst i hs] at ht
    cases ht

theorem Inv.step (hw : Inv w) {event : RegistryEvent} (hr : w.Releases event) :
    ∃ w', w.step event = some w' ∧ Inv w' := by
  cases event with
  | construct a =>
    simp only [ActionRegistry.step]
    split
    · exact ⟨w, rfl, hw⟩
    · next ha => exact ⟨_, rfl, hw.construct (bind_of_lookup_none ha)⟩
  | constructDefault a =>
    simp only [ActionRegistry.step]
    split
    · exact ⟨w, rfl, hw⟩
    · next ha => exact ⟨_, rfl, hw.constructDefault (bind_of_lookup_none ha)⟩
  | moveConstruct a b =>
    simp only [ActionRegistry.step]
    split
    · next o ha hb =>
      refine hw.moveAction (bind_of_lookup_none ha) hb ?_
      rintro rfl
      rw [ha] at hb
      cases hb
    · exact ⟨w, rfl, hw⟩
  | moveAssign a b =>
    simp only [ActionRegistry.step]
    split
    · exact ⟨w, rfl, hw⟩
    · next hab =>
      split
      · next c o ha hb =>
        have hc : c.index = none := by
          by_contra h
          rw [hr hab c ha h] at hb
          cases hb
        exact hw.moveAction (by rw [indexOf, ha, Option.bind_some, hc]) hb hab
      · exact ⟨w, rfl, hw⟩
  | destroy a =>
    cases ha : w.actions.lookup a with
    | none => exact ⟨w, by simp only [ActionRegistry.step, ha], hw⟩
    | some o => exact hw.destroy ha
  | newShare s =>
    simp only [ActionRegistry.step]
    split
    · exact ⟨w, rfl, hw⟩
    · next hs => exact ⟨_, rfl, hw.newShare (bind_of_lookup_none hs)⟩
  | copyShare s t =>
    simp only [ActionRegistry.step]
    split
    · next it hs ht => exact hw.putCopy (bind_of_lookup_none hs) (share_held ht)
    · exact ⟨w, rfl, hw⟩
  | copyIndex s a =>
    simp only [ActionRegistry.step]
    split
    · next o hs ha =>
      apply hw.putCopy (bind_of_lookup_none hs)
      intro i hi
      have hindex : w.indexOf a = some i := by rw [indexOf, ha, Option.bind_some, hi]
      have hpos := List.count_pos_iff.mpr (mem_held_of_indexOf hindex)
      omega
    · exact ⟨w, rfl, hw⟩
  | moveShare s t =>
    simp only [ActionRegistry.step]
    split
    · next it hs ht =>
      refine ⟨_, rfl, hw.putMoved (bind_of_lookup_none hs) ht ?_⟩
      rintro rfl
      rw [hs] at ht
      cases ht
    · exact ⟨w, rfl, hw⟩
  | assignShare s t =>
    simp only [ActionRegistry.step]
    split
    · exact ⟨w, rfl, hw⟩
    · next hst =>
      split
      · next old it hs ht => exact hw.putCopy (unshared hr hst hs ht) (share_held ht)
      · exact ⟨w, rfl, hw⟩
  | assignMoveShare s t =>
    simp only [ActionRegistry.step]
    split
    · exact ⟨w, rfl, hw⟩
    · next hst =>
      split
      · next old it hs ht => exact ⟨_, rfl, hw.putMoved (unshared hr hst hs ht) ht hst⟩
      · exact ⟨w, rfl, hw⟩
  | destroyShare s =>
    simp only [ActionRegistry.step]
    split
    · exact ⟨w, rfl, hw⟩
    · next it hs => exact hw.destroyShare hs
  | beginUpdate => exact ⟨_, rfl, hw.replicate⟩
  | callNext => exact hw.callNext
  | endUpdate => exact hw.endUpdate

theorem Inv.booksInOrder (hw : Inv w) : BooksInOrder w where
  once := by
    intro a o i ha hi
    have hindex : w.indexOf a = some i := by rw [indexOf, ha, Option.bind_some, hi]
    obtain ⟨e, he, rfl⟩ := hw.mem_held (mem_held_of_indexOf hindex)
    apply Tables.countP_eq_one hw.balanced.nodup he
    · exact decide_eq_true ((hw.pointed.action e he a).mpr hindex)
    · intro e' he' h
      have hindex' := (hw.pointed.action e' he' a).mp (of_decide_eq_true h)
      exact Option.some.inj (hindex'.symm.trans hindex)
  live := by
    intro e he a ha
    obtain ⟨o, ho, hi⟩ := Option.bind_eq_some_iff.mp ((hw.pointed.action e he a).mp ha)
    exact ⟨o, e.iterator, ho, hi⟩
  counter := by
    intro e he
    rw [hw.balanced.counter e he]
    exact Nat.zero_add _
  shared := hw.balanced.shared
  called := by
    intro l hl
    exact (List.nodup_append.mp (hw.pointed.calls l hl).1).1

theorem counter_setAction {x : Option ℕ} (h : w.setAction x it = some w') (he : e ∈ w.actionList) :
    ∃ e' ∈ w'.actionList, e'.iterator = e.iterator ∧ e'.counter = e.counter := by
  cases it with
  | none =>
    cases h
    exact ⟨e, he, rfl, rfl⟩
  | some i =>
    obtain ⟨c, -, rfl⟩ := Option.map_eq_some_iff.mp h
    refine ⟨_, List.mem_map_of_mem he, ?_⟩
    split
    · exact ⟨rfl, rfl⟩
    · exact ⟨rfl, rfl⟩

theorem held_setAction {x : Option ℕ} (h : w.setAction x it = some w') : w'.held = w.held := by
  cases it with
  | none =>
    cases h
    rfl
  | some i =>
    obtain ⟨c, -, rfl⟩ := Option.map_eq_some_iff.mp h
    rfl

theorem Inv.moveAction_counter (hw : Inv w) {c : ActionObject} (hab : a ≠ b)
    (ha : w.actions.lookup a = some c) (hi : c.index = some i) (hb : w.actions.lookup b = some o)
    (h : w.moveAction a b o = some w') : ¬BooksInOrder w' := by
  intro hbooks
  have hindex : w.indexOf a = some i := by rw [indexOf, ha, Option.bind_some, hi]
  have hob : w.indexOf b = o.index := by rw [indexOf, hb, Option.bind_some]
  obtain ⟨e, he, rfl⟩ := hw.mem_held (mem_held_of_indexOf hindex)
  obtain ⟨e', he', hit, hcounter⟩ := counter_setAction h he
  have hc := hw.balanced.counter e he
  have hc' := hbooks.counter e' he'
  rw [held_setAction h, hit] at hc'
  have h₁ := count_held_setObject (w := w) (a := a) (o := o) e.iterator
  have h₂ := count_held_setObject (w := w.setObject a o) (a := b) (o := { o with index := none })
    e.iterator
  rw [indexOf_setObject, if_neg (Ne.symm hab), hob] at h₂
  rw [hindex] at h₁
  have hone : (some e.iterator : Option ℕ).toList.count e.iterator = 1 := List.count_cons_self
  simp only [Option.toList_none, List.count_nil] at h₂ hc
  omega

theorem Inv.assignShare_counter (hw : Inv w) (hs : w.shares.lookup s = some (some i))
    (ht : w.shares.lookup t = some it)
    (h : (w.acquire it).map (fun u => u.setShare s it) = some w') : ¬BooksInOrder w' := by
  intro hbooks
  obtain ⟨u, hu, hb, hk⟩ := hw.balanced.acquire (share_held ht)
  rw [hu, Option.map_some] at h
  cases h
  have hpos := List.count_pos_iff.mpr (mem_held_of_share hs)
  obtain ⟨e, he, rfl⟩ := hb.known i (by rw [hk.held]; omega)
  have hc := hb.counter e he
  have hc' := hbooks.counter e he
  have h₁ := count_held_setShare u s it e.iterator
  rw [hk.shares, hs] at h₁
  have hone : ((some (some e.iterator)).bind id : Option ℕ).toList.count e.iterator = 1 :=
    List.count_cons_self
  rw [List.append_nil] at hc
  omega

theorem Inv.assignMoveShare_counter (hw : Inv w) (hst : s ≠ t)
    (hs : w.shares.lookup s = some (some i)) (ht : w.shares.lookup t = some it) :
    ¬BooksInOrder ((w.setShare s it).setShare t none) := by
  intro hbooks
  obtain ⟨e, he, rfl⟩ := hw.mem_held (mem_held_of_share hs)
  have hc := hw.balanced.counter e he
  have hc' := hbooks.counter e he
  have h₁ := count_held_setShare w s it e.iterator
  have h₂ := count_held_setShare (w.setShare s it) t none e.iterator
  have hlookup : (w.setShare s it).shares.lookup t = some it := by
    rw [setShare, AList.lookup_insert_ne (Ne.symm hst), ht]
  rw [hs] at h₁
  rw [hlookup] at h₂
  have hone : ((some (some e.iterator)).bind id : Option ℕ).toList.count e.iterator = 1 :=
    List.count_cons_self
  change it.toList.count e.iterator + _ = 0 + _ at h₂
  simp only [List.count_nil] at hc
  omega

theorem Inv.releases (hw : Inv w) {event : RegistryEvent} (h : w.step event = some w')
    (hbooks : BooksInOrder w') : w.Releases event := by
  cases event with
  | moveAssign a b =>
    intro hab c ha hc
    obtain ⟨i, hi⟩ := Option.ne_none_iff_exists'.mp hc
    cases hb : w.actions.lookup b with
    | none => rfl
    | some o =>
      simp only [ActionRegistry.step, if_neg hab, ha, hb] at h
      exact absurd hbooks (hw.moveAction_counter hab ha hi hb h)
  | assignShare s t =>
    intro hst i hs
    cases ht : w.shares.lookup t with
    | none => rfl
    | some it =>
      simp only [ActionRegistry.step, if_neg hst, hs, ht] at h
      exact absurd hbooks (hw.assignShare_counter hs ht h)
  | assignMoveShare s t =>
    intro hst i hs
    cases ht : w.shares.lookup t with
    | none => rfl
    | some it =>
      simp only [ActionRegistry.step, if_neg hst, hs, ht] at h
      cases h
      exact absurd hbooks (hw.assignMoveShare_counter hst hs ht)
  | _ => trivial

/-- The books stay in order, and no dead action is called, exactly as long as nothing is assigned
over an action or a share that has an entry. -/
theorem books_in_order_iff (events : List RegistryEvent) :
    Along step Releases {} events ↔
      ∀ es, es <+: events → ∃ w, run step {} es = some w ∧ BooksInOrder w :=
  along_iff (fun _ => Inv.booksInOrder) (fun _ _ hw hr => hw.step hr)
    (fun _ _ _ hw h hbooks => hw.releases h hbooks) inv_initial

/-- Two actions, the second assigned over the first, which then ends: the first entry still points
to it, and the next `Update` calls it. -/
theorem update_calls_dead_action : ¬∀ events : List RegistryEvent, ∀ es, es <+: events →
    ∃ w, run step {} es = some w ∧ BooksInOrder w := by
  intro h
  obtain ⟨w, hw, -⟩ := h [.construct 1, .construct 2, .moveAssign 1 2, .destroy 1, .beginUpdate,
    .callNext] _ (List.prefix_refl _)
  have hnone : run step {} [.construct 1, .construct 2, .moveAssign 1 2, .destroy 1, .beginUpdate,
    .callNext] = none := by rfl
  rw [hnone] at hw
  cases hw

end AetherClient.ActionRegistry
