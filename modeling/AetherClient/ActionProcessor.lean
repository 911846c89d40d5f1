import AetherClient.ActionRegistryBooks
import AetherClient.SafeStreamTypes
import Mathlib.Order.MinMax

set_option autoImplicit false

namespace AetherClient

/-- Registering and unregistering: no share is assigned over another, and no `Update` begins. -/
def RegistryEvent.registers : RegistryEvent → Bool
  | .moveAssign _ _ | .assignShare _ _ | .assignMoveShare _ _ => false
  | .beginUpdate | .callNext | .endUpdate => false
  | _ => true

namespace ActionProcessor
open Runs

def selectNextUpdate (newTime oldTime currentTime : TimePoint) : TimePoint :=
  if currentTime < newTime then
    if oldTime ≠ currentTime then min newTime oldTime else newTime
  else max oldTime currentTime

/-- What the update of the action with an identity does to the registry, and the time that it
returns. An action is updated once, so this need not depend on the state. -/
abbrev Behaviour := ℕ → List RegistryEvent × TimePoint

/-- A turn of the loop: the entry, the registry at this time, and the action that was called, with
the time that it returned. -/
structure UpdateTurn where
  entry : ℕ
  registry : ActionRegistry
  call : Option (ℕ × TimePoint)

def getAction (w : ActionRegistry) (i : ℕ) : Option (Option ℕ) :=
  (w.find i).bind fun e =>
    match e.action with
    | none => some none
    | some a => (w.actions.lookup a).map fun o => some o.identity

def updateEntries (behaviour : Behaviour) (currentTime : TimePoint) :
    List ℕ → ActionRegistry → TimePoint → Option (List UpdateTurn × TimePoint × ActionRegistry)
  | [], w, nextUpdate => some ([], nextUpdate, w)
  | i :: entries, w, nextUpdate =>
    (getAction w i).bind fun action =>
      w.callNext.bind fun w' =>
        match action with
        | none =>
          (updateEntries behaviour currentTime entries w' nextUpdate).map fun rest =>
            (⟨i, w, none⟩ :: rest.1, rest.2)
        | some id =>
          (run ActionRegistry.step w' (behaviour id).1).bind fun w' =>
            (updateEntries behaviour currentTime entries w'
              (selectNextUpdate (behaviour id).2 nextUpdate currentTime)).map fun rest =>
                (⟨i, w, some (id, (behaviour id).2)⟩ :: rest.1, rest.2)

def update (behaviour : Behaviour) (currentTime : TimePoint) (w : ActionRegistry) :
    Option (List UpdateTurn × TimePoint × ActionRegistry) :=
  (updateEntries behaviour currentTime (w.actionList.map ActionIndex.iterator) w.replicate
    currentTime).bind fun rest => rest.2.2.endUpdate.map fun w' => (rest.1, rest.2.1, w')

/-- The earliest of the times that are later than the current one, or the current one. -/
def Earliest (currentTime : TimePoint) (times : List TimePoint) (next : TimePoint) : Prop :=
  (next ∈ times ∧ currentTime < next ∧ ∀ s ∈ times, currentTime < s → next ≤ s) ∨
    (next = currentTime ∧ ∀ s ∈ times, s ≤ currentTime)

theorem earliest_nil (currentTime : TimePoint) : Earliest currentTime [] currentTime :=
  .inr ⟨rfl, fun _ hs => nomatch hs⟩

theorem Earliest.select {currentTime : TimePoint} {times : List TimePoint} {next : TimePoint}
    (h : Earliest currentTime times next) (newTime : TimePoint) :
    Earliest currentTime (times ++ [newTime]) (selectNextUpdate newTime next currentTime) := by
  unfold selectNextUpdate
  split
  · next hnew =>
    left
    obtain ⟨hmem, hlater, hleast⟩ | ⟨rfl, hpast⟩ := h
    · rw [if_pos (ne_of_gt hlater)]
      refine ⟨?_, lt_min hnew hlater, ?_⟩
      · obtain hmin | hmin := min_choice newTime next
        · simp [hmin]
        · simp [hmin, hmem]
      · intro s hs hlt
        obtain hs | hs := List.mem_append.mp hs
        · exact le_trans (min_le_right _ _) (hleast s hs hlt)
        · obtain rfl := List.mem_singleton.mp hs
          exact min_le_left _ _
    · rw [if_neg (by simp)]
      refine ⟨by simp, hnew, ?_⟩
      intro s hs hlt
      obtain hs | hs := List.mem_append.mp hs
      · exact absurd hlt (not_lt_of_ge (hpast s hs))
      · exact le_of_eq (List.mem_singleton.mp hs).symm
  · next hnew =>
    have hpast := le_of_not_gt hnew
    obtain ⟨hmem, hlater, hleast⟩ | ⟨rfl, hall⟩ := h
    · rw [max_eq_left (le_of_lt hlater)]
      refine .inl ⟨by simp [hmem], hlater, ?_⟩
      intro s hs hlt
      obtain hs | hs := List.mem_append.mp hs
      · exact hleast s hs hlt
      · obtain rfl := List.mem_singleton.mp hs
        exact absurd hlt hnew
    · rw [max_self]
      refine .inr ⟨rfl, ?_⟩
      intro s hs
      obtain hs | hs := List.mem_append.mp hs
      · exact hall s hs
      · exact List.mem_singleton.mp hs ▸ hpast

end ActionProcessor

namespace ActionRegistry
open Runs

def Registered (w : ActionRegistry) (id : ℕ) : Prop :=
  ∃ a o, w.actions.lookup a = some o ∧ o.index ≠ none ∧ o.identity = id

variable {w w' w'' : ActionRegistry} {a i : ℕ} {it : IndexShare} {o : ActionObject}

theorem Inv.registered_iff (hw : Inv w) : w.Registered i ↔ ∃ a, w.indexOf a = some i := by
  constructor
  · rintro ⟨a, o, ha, hindex, rfl⟩
    obtain ⟨j, hj⟩ := Option.ne_none_iff_exists'.mp hindex
    rw [hw.pointed.identity a o ha j hj]
    exact ⟨a, by rw [indexOf, ha, Option.bind_some, hj]⟩
  · rintro ⟨a, ha⟩
    obtain ⟨o, ho, hi⟩ := Option.bind_eq_some_iff.mp ha
    exact ⟨a, o, ho, by simp [hi], hw.pointed.identity a o ho i hi⟩

structure Follows (w w' : ActionRegistry) : Prop where
  updates : w'.updates = w.updates
  fresh : w.fresh ≤ w'.fresh
  action : ∀ i < w.fresh, (∃ a, w'.indexOf a = some i) → ∃ a, w.indexOf a = some i

theorem Follows.refl (w : ActionRegistry) : Follows w w := ⟨rfl, Nat.le_refl _, fun _ _ h => h⟩

theorem Follows.trans (h : Follows w w') (h' : Follows w' w'') : Follows w w'' where
  updates := h'.updates.trans h.updates
  fresh := Nat.le_trans h.fresh h'.fresh
  action := fun i hi ha => h.action i hi (h'.action i (Nat.lt_of_lt_of_le hi h.fresh) ha)

theorem follows_of_eq (hu : w'.updates = w.updates) (hf : w'.fresh = w.fresh)
    (ha : w'.actions = w.actions) : Follows w w' := by
  refine ⟨hu, Nat.le_of_eq hf.symm, ?_⟩
  intro i _ h
  simpa only [indexOf, ha] using h

theorem follows_acquire (h : w.acquire it = some w') : Follows w w' := by
  cases it with
  | none =>
    obtain rfl := Option.some.inj h
    exact .refl w
  | some i =>
    obtain ⟨e, -, rfl⟩ := Option.map_eq_some_iff.mp h
    exact follows_of_eq rfl rfl rfl

theorem follows_setAction {x : Option ℕ} (h : w.setAction x it = some w') : Follows w w' := by
  cases it with
  | none =>
    obtain rfl := Option.some.inj h
    exact .refl w
  | some i =>
    obtain ⟨e, -, rfl⟩ := Option.map_eq_some_iff.mp h
    exact follows_of_eq rfl rfl rfl

theorem follows_release (h : w.release it = some w') : Follows w w' := by
  cases it with
  | none =>
    obtain rfl := Option.some.inj h
    exact .refl w
  | some i =>
    obtain ⟨e, -, h⟩ := Option.bind_eq_some_iff.mp h
    split at h
    · cases h
    · split at h
      · obtain rfl := Option.some.inj h
        exact follows_of_eq rfl rfl rfl
      · obtain rfl := Option.some.inj h
        exact follows_of_eq rfl rfl rfl

theorem follows_setObject (h : ∀ i ∈ o.index, i < w.fresh → ∃ x, w.indexOf x = some i) :
    Follows w (w.setObject a o) := by
  refine ⟨rfl, Nat.le_refl _, ?_⟩
  rintro i hi ⟨x, hx⟩
  rw [indexOf_setObject] at hx
  split at hx
  · exact h i hx hi
  · exact ⟨x, hx⟩

theorem follows_eraseAction (a : ℕ) : Follows w { w with actions := w.actions.erase a } := by
  refine ⟨rfl, Nat.le_refl _, ?_⟩
  rintro i _ ⟨x, hx⟩
  refine ⟨x, ?_⟩
  obtain ⟨o, ho, hi⟩ := Option.bind_eq_some_iff.mp hx
  by_cases hxa : x = a
  · subst hxa
    simp at ho
  · rw [AList.lookup_erase_ne hxa] at ho
    rw [indexOf, ho, Option.bind_some, hi]

theorem follows_moveAction {b : ℕ} (hb : w.actions.lookup b = some o)
    (h : w.moveAction a b o = some w') : Follows w w' := by
  have hindex : w.indexOf b = o.index := by rw [indexOf, hb, Option.bind_some]
  have hmoved : Follows w (w.setObject a o) := follows_setObject fun i hi _ => ⟨b, hindex.trans hi⟩
  have hleft : Follows (w.setObject a o)
      ((w.setObject a o).setObject b { o with index := none }) := by
    apply follows_setObject
    intro i hi _
    cases hi
  exact (hmoved.trans hleft).trans (follows_setAction h)

theorem step_follows {event : RegistryEvent} (hevent : event.registers = true)
    (h : w.step event = some w') : Follows w w' := by
  cases event with
  | moveAssign | assignShare | assignMoveShare | beginUpdate | callNext | endUpdate => cases hevent
  | construct a =>
    simp only [step] at h
    split at h
    · obtain rfl := Option.some.inj h
      exact .refl w
    · obtain rfl := Option.some.inj h
      refine ⟨rfl, Nat.le_succ _, ?_⟩
      rintro i hi ⟨x, hx⟩
      rw [indexOf_setObject] at hx
      split at hx
      · exact absurd (Option.some.inj hx) (Nat.ne_of_gt hi)
      · exact ⟨x, hx⟩
  | constructDefault a =>
    simp only [step] at h
    split at h
    · obtain rfl := Option.some.inj h
      exact .refl w
    · obtain rfl := Option.some.inj h
      have hfresh : Follows w { w with fresh := w.fresh + 1 } :=
        ⟨rfl, Nat.le_succ _, fun _ _ h => h⟩
      refine hfresh.trans (follows_setObject ?_)
      intro i hi _
      cases hi
  | moveConstruct a b =>
    simp only [step] at h
    split at h
    · next hb => exact follows_moveAction hb h
    · obtain rfl := Option.some.inj h
      exact .refl w
  | destroy a =>
    simp only [step] at h
    split at h
    · obtain rfl := Option.some.inj h
      exact .refl w
    · obtain ⟨w₁, hset, hrelease⟩ := Option.bind_eq_some_iff.mp h
      exact ((follows_setAction hset).trans (follows_eraseAction a)).trans (follows_release hrelease)
  | newShare s =>
    simp only [step] at h
    split at h
    · obtain rfl := Option.some.inj h
      exact .refl w
    · obtain rfl := Option.some.inj h
      exact follows_of_eq rfl rfl rfl
  | copyShare s t | copyIndex s a =>
    simp only [step] at h
    split at h
    · obtain ⟨w₁, hacquire, rfl⟩ := Option.map_eq_some_iff.mp h
      exact (follows_acquire hacquire).trans (follows_of_eq rfl rfl rfl)
    · obtain rfl := Option.some.inj h
      exact .refl w
  | moveShare s t =>
    simp only [step] at h
    split at h
    · obtain rfl := Option.some.inj h
      exact follows_of_eq rfl rfl rfl
    · obtain rfl := Option.some.inj h
      exact .refl w
  | destroyShare s =>
    simp only [step] at h
    split at h
    · obtain rfl := Option.some.inj h
      exact .refl w
    · have hshares : Follows w { w with shares := w.shares.erase s } := follows_of_eq rfl rfl rfl
      exact hshares.trans (follows_release h)

theorem releases_of_registers {event : RegistryEvent} (h : event.registers = true) :
    w.Releases event := by
  cases event with
  | moveAssign | assignShare | assignMoveShare => cases h
  | _ => trivial

theorem run_registers (hw : Inv w) {events : List RegistryEvent}
    (hevents : ∀ e ∈ events, e.registers = true) :
    ∃ w', run step w events = some w' ∧ Inv w' ∧ Follows w w' := by
  have halong : Along step (fun _ e => e.registers = true) w events :=
    Along.of_forall fun e he _ => hevents e he
  have hstep : ∀ u e, Inv u ∧ Follows w u → e.registers = true →
      ∃ u', step u e = some u' ∧ Inv u' ∧ Follows w u' := by
    rintro u e ⟨hu, hfollows⟩ he
    obtain ⟨u', hstep, hu'⟩ := hu.step (releases_of_registers he)
    exact ⟨u', hstep, hu', hfollows.trans (step_follows he hstep)⟩
  exact run_invariant hstep ⟨hw, .refl w⟩ halong

end ActionRegistry

namespace ActionProcessor
open ActionRegistry Runs

variable {w : ActionRegistry} {i : ℕ} {replica rest called : List ℕ} {loops : List UpdateLoop}

theorem exists_turn (hw : Inv w) (hu : w.updates = ⟨replica, i :: rest, called⟩ :: loops) :
    ∃ action w', getAction w i = some action ∧ w.callNext = some w' ∧ Inv w' ∧
      w' = { w with updates := ⟨replica, rest, called ++ action.toList⟩ :: loops } ∧
      (action = some i ∧ w.Registered i ∨ action = none ∧ ¬w.Registered i) := by
  obtain ⟨w', hnext, hw'⟩ := hw.callNext
  obtain ⟨-, hsub⟩ := hw.pointed.calls _ (hu ▸ List.mem_cons_self)
  have hheld : i ∈ w.held := mem_held_of_update (hu ▸ List.mem_cons_self) (hsub List.mem_cons_self)
  obtain ⟨e, he, hfind, rfl⟩ := hw.balanced.find (i := i) (by
    have hpos := List.count_pos_iff.mpr hheld
    omega)
  have hcall : w.callNext = (getAction w e.iterator).map fun action =>
      { w with updates := ⟨replica, rest, called ++ action.toList⟩ :: loops } := by
    simp only [ActionRegistry.callNext, hu, getAction, hfind, Option.bind_some]
    cases haction : e.action with
    | none => simp
    | some a => cases ho : w.actions.lookup a <;> simp [ho]
  obtain ⟨action, hget, rfl⟩ := Option.map_eq_some_iff.mp (hcall.symm.trans hnext)
  refine ⟨action, _, hget, hnext, hw', rfl, ?_⟩
  rw [getAction, hfind, Option.bind_some] at hget
  cases haction : e.action with
  | none =>
    rw [haction] at hget
    refine .inr ⟨(Option.some.inj hget).symm, fun hreg => ?_⟩
    obtain ⟨a, ha⟩ := hw.registered_iff.mp hreg
    rw [(hw.pointed.action e he a).mpr ha] at haction
    cases haction
  | some a =>
    rw [haction] at hget
    obtain ⟨o, ho, rfl⟩ := Option.map_eq_some_iff.mp hget
    have hindex := (hw.pointed.action e he a).mp haction
    obtain ⟨o', ho', hi⟩ := Option.bind_eq_some_iff.mp hindex
    obtain rfl := Option.some.inj (ho.symm.trans ho')
    rw [hw.pointed.identity a o ho _ hi]
    exact .inl ⟨rfl, hw.registered_iff.mpr ⟨a, hindex⟩⟩

def times (turns : List UpdateTurn) : List TimePoint :=
  (turns.filterMap UpdateTurn.call).map Prod.snd

/-- Which action a turn calls, for the actions that were registered at the start. -/
def CallsAlive (behaviour : Behaviour) (start : ActionRegistry) (turn : UpdateTurn) : Prop :=
  ∀ c, turn.call = some c ↔ start.Registered turn.entry ∧ turn.registry.Registered turn.entry ∧
    c = (turn.entry, (behaviour turn.entry).2)

theorem exists_updateEntries {behaviour : Behaviour}
    (hbehaviour : ∀ id, ∀ e ∈ (behaviour id).1, e.registers = true) (currentTime : TimePoint)
    {start : ActionRegistry} {entries : List ℕ} (hw : Inv w)
    (hu : w.updates = ⟨replica, entries, called⟩ :: loops)
    (hstart : ∀ i ∈ entries, i < w.fresh ∧ (w.Registered i → start.Registered i))
    {seen : List TimePoint} {nextUpdate : TimePoint} (hnext : Earliest currentTime seen nextUpdate) :
    ∃ turns next w', updateEntries behaviour currentTime entries w nextUpdate =
        some (turns, next, w') ∧ Inv w' ∧
      turns.map UpdateTurn.entry = entries ∧ (∀ turn ∈ turns, CallsAlive behaviour start turn) ∧
      Earliest currentTime (seen ++ times turns) next := by
  induction entries generalizing w called seen nextUpdate with
  | nil =>
    refine ⟨[], nextUpdate, w, rfl, hw, rfl, fun _ h => (nomatch h), ?_⟩
    simpa [times] using hnext
  | cons i entries ih =>
    obtain ⟨action, w₁, hget, hcall, hw₁, hw₁eq, haction⟩ := exists_turn hw hu
    have hold : ∀ j, w₁.Registered j ↔ w.Registered j := by
      intro j
      rw [hw₁eq]
      exact Iff.rfl
    have hu₁ : w₁.updates = ⟨replica, entries, called ++ action.toList⟩ :: loops := by rw [hw₁eq]
    have hfresh : w₁.fresh = w.fresh := by rw [hw₁eq]
    obtain ⟨rfl, hreg⟩ | ⟨rfl, hreg⟩ := haction
    · -- the action registers and unregisters others before the next turn
      obtain ⟨w₂, hrun, hw₂, hfollows⟩ := run_registers hw₁ (hbehaviour i)
      have hstart₂ : ∀ j ∈ entries, j < w₂.fresh ∧ (w₂.Registered j → start.Registered j) := by
        intro j hj
        obtain ⟨hlt, hj⟩ := hstart j (List.mem_cons_of_mem i hj)
        rw [← hfresh] at hlt
        refine ⟨Nat.lt_of_lt_of_le hlt hfollows.fresh, fun hreg₂ => hj ((hold j).mp ?_)⟩
        exact hw₁.registered_iff.mpr (hfollows.action j hlt (hw₂.registered_iff.mp hreg₂))
      obtain ⟨turns, next, w', hupdate, hw', hentries, hcalls, hearliest⟩ :=
        ih hw₂ (hfollows.updates.trans hu₁) hstart₂ (hnext.select (behaviour i).2)
      refine ⟨⟨i, w, some (i, (behaviour i).2)⟩ :: turns, next, w', ?_, hw', ?_, ?_, ?_⟩
      · simp only [updateEntries, hget, hcall, hrun, hupdate, Option.bind_some, Option.map_some]
      · rw [List.map_cons, hentries]
      · refine List.forall_mem_cons.mpr ⟨fun c => ?_, hcalls⟩
        have hfirst := (hstart i List.mem_cons_self).2 hreg
        simp [hfirst, hreg, eq_comm]
      · simpa [times] using hearliest
    · have hstart₁ : ∀ j ∈ entries, j < w₁.fresh ∧ (w₁.Registered j → start.Registered j) := by
        intro j hj
        rw [hfresh, hold]
        exact hstart j (List.mem_cons_of_mem i hj)
      obtain ⟨turns, next, w', hupdate, hw', hentries, hcalls, hearliest⟩ :=
        ih hw₁ hu₁ hstart₁ hnext
      refine ⟨⟨i, w, none⟩ :: turns, next, w', ?_, hw', ?_, ?_, ?_⟩
      · simp only [updateEntries, hget, hcall, hupdate, Option.bind_some, Option.map_some]
      · rw [List.map_cons, hentries]
      · refine List.forall_mem_cons.mpr ⟨fun c => ?_, hcalls⟩
        simp [hreg]
      · simpa [times] using hearliest

end ActionProcessor
end AetherClient
