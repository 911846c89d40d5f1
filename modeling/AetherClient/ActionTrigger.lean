import AetherClient.Runs
import Mathlib.Logic.Function.Basic

set_option autoImplicit false

/-!
# The trigger of the action processor

The main loop sleeps in `WaitUntil` and any thread wakes it with `Trigger`. A thread is somewhere
in one of these calls, and one of its steps is one access to the flag, to the mutex or to the
condition variable. A condition variable may wake a sleeper for no reason, and the time of a
sleeper in `WaitUntil` may be up at any moment.
-/
namespace AetherClient.ActionTrigger
open Runs

inductive Call where
  | wait
  | waitUntil
  | trigger
deriving DecidableEq, Repr

/-- Where a thread stands. `timed` tells `WaitUntil` from `Wait`. -/
inductive Place where
  | idle
  | exchange (timed : Bool)
  | enter (timed : Bool)
  | test (timed : Bool)
  | asleep (timed : Bool)
  /-- awake in the condition variable's wait, before it takes the mutex again -/
  | woken (timed : Bool)
  /-- the same, after the time was up -/
  | expired
  | lastTest
  /-- before the flag is reset; `res` is what the call will return -/
  | reset (res : Bool)
  | leave (res : Bool)
  /-- `Trigger`, before `lock_guard`, the store, `notify_all` and the end of the scope -/
  | lock
  | set
  | notify
  | unlock
deriving DecidableEq, Repr

inductive Event where
  | call (c : Call)
  | move
  | wakeUp
  /-- The time of a sleeper is up, maybe after a notification. -/
  | expire
deriving DecidableEq, Repr

/-- The new values of the atomic and of `expected`. -/
def compareExchangeStrong (value expected desired : Bool) : Bool × Bool :=
  if value = expected then (desired, expected) else (value, value)

structure Next where
  triggered : Bool
  place : Place
  notifies : Bool := false

namespace Place

def locked : Place → Bool
  | test _ | lastTest | reset _ | leave _ | set | notify | unlock => true
  | _ => false

def sleeps : Place → Bool
  | asleep _ => true
  | _ => false

def wakeUp : Place → Place
  | asleep timed => woken timed
  | p => p

def next (triggered : Bool) : Event → Place → Option Next
  | .call .wait, idle => some ⟨triggered, exchange false, false⟩
  | .call .waitUntil, idle => some ⟨triggered, exchange true, false⟩
  | .call .trigger, idle => some ⟨triggered, lock, false⟩
  | .move, exchange timed =>
    let (triggered, res) := compareExchangeStrong triggered true false
    some { triggered, place := if res then idle else enter timed }
  | .move, enter timed | .move, woken timed => some ⟨triggered, test timed, false⟩
  | .move, test timed =>
    -- `res` is false here, so that a set flag makes the exchange fail and shows in `res`
    let (triggered, res) := compareExchangeStrong triggered false false
    some { triggered, place := if res then reset true else asleep timed }
  | .move, expired => some ⟨triggered, lastTest, false⟩
  | .move, lastTest =>
    let (triggered, res) := compareExchangeStrong triggered false false
    some { triggered, place := reset res }
  | .move, reset res => some ⟨false, leave res, false⟩
  | .move, leave _ | .move, unlock => some ⟨triggered, idle, false⟩
  | .move, lock => some ⟨triggered, set, false⟩
  | .move, set => some ⟨true, notify, false⟩
  | .move, notify => some ⟨triggered, unlock, true⟩
  | .wakeUp, asleep timed => some ⟨triggered, woken timed, false⟩
  | .expire, asleep true | .expire, woken true => some ⟨triggered, expired, false⟩
  | _, _ => none

variable {b : Bool} {p : Place} {e : Event} {n : Next}

theorem locked_wakeUp (p : Place) : p.wakeUp.locked = p.locked := by
  cases p <;> rfl

theorem sleeps_wakeUp (p : Place) : p.wakeUp.sleeps = false := by
  cases p <;> rfl

/-- A step under a set flag does not fall asleep, only the store sets the flag, and it is followed
by the notification. -/
theorem next_spec (h : p.next b e = some n) : (n.triggered = true → n.place.sleeps = false) ∧
    (n.triggered = true → b = true ∨ n.place = notify) ∧ (p = notify → n.notifies = true) := by
  unfold next at h
  split at h <;> cases b <;> simp [compareExchangeStrong] at h <;> subst h <;> simp [sleeps]

theorem next_move_eq_none (h : p.next b .move = none) : p = idle ∨ p.sleeps = true := by
  cases p <;> simp [next, sleeps] at h ⊢

end Place

structure SyncObject (τ : Type) where
  triggered : Bool := false
  mutex : Option τ := none
  place : τ → Place := fun _ => .idle

namespace SyncObject
variable {τ : Type} [DecidableEq τ]

/-- A step into the scope of the lock waits for the mutex, and one out of it gives it back. -/
def step (s : SyncObject τ) : τ × Event → Option (SyncObject τ)
  | (t, e) => ((s.place t).next s.triggered e).bind fun n =>
    if n.place.locked ∧ ¬(s.place t).locked ∧ s.mutex ≠ none then none
    else some {
      triggered := n.triggered
      mutex := if n.place.locked then some t else if (s.place t).locked then none else s.mutex
      place := Function.update
        (if n.notifies then fun u => (s.place u).wakeUp else s.place) t n.place }

structure Inv (s : SyncObject τ) : Prop where
  holder : ∀ t, (s.place t).locked = true ↔ s.mutex = some t
  notifier : s.triggered = true → ∀ t, (s.place t).sleeps = true → ∃ u, s.place u = .notify

variable {s s' : SyncObject τ}

theorem Inv.step (h : Inv s) {e : τ × Event} (hs : s.step e = some s') : Inv s' := by
  obtain ⟨t, e⟩ := e
  obtain ⟨n, hn, hs⟩ := Option.bind_eq_some_iff.1 hs
  split at hs
  · cases hs
  next hfree =>
  cases hs
  obtain ⟨hawake, hset, hnotify⟩ := Place.next_spec hn
  have ht := h.holder t
  constructor
  · intro u
    have hu := h.holder u
    by_cases hut : u = t
    · subst hut
      simp only [Function.update_self]
      split <;> simp_all
    · have hplace : (Function.update (if n.notifies then fun u => (s.place u).wakeUp else s.place)
          t n.place u).locked = (s.place u).locked := by
        rw [Function.update_of_ne hut]
        split
        · exact Place.locked_wakeUp _
        · rfl
      rw [hplace, hu]
      cases hp : (s.place t).locked with
      | true => simp [ht.1 hp, Ne.symm hut]
      | false =>
        by_cases hl : n.place.locked = true
        · have hm : s.mutex = none := by simpa [hl, hp] using hfree
          simp [hl, hm, Ne.symm hut]
        · simp [hl]
  · intro htrue u hu
    dsimp only at htrue hu ⊢
    have hut : u ≠ t := by
      rintro rfl
      rw [Function.update_self, hawake htrue] at hu
      cases hu
    rw [Function.update_of_ne hut] at hu
    split at hu
    · rw [Place.sleeps_wakeUp] at hu
      cases hu
    next hquiet =>
    obtain hb | hp := hset htrue
    · obtain ⟨v, hv⟩ := h.notifier hb u hu
      refine ⟨v, ?_⟩
      have hvt : v ≠ t := by
        rintro rfl
        exact hquiet (hnotify hv)
      rw [Function.update_of_ne hvt, if_neg hquiet, hv]
    · exact ⟨t, by rw [Function.update_self, hp]⟩

omit [DecidableEq τ] in
theorem Inv.init : Inv ({} : SyncObject τ) where
  holder _ := by simp [Place.locked]
  notifier h := absurd h (by simp)

def secondWait : List (Bool × Event) :=
  (true, .call .waitUntil) :: List.replicate 3 (true, .move) ++
    (false, .call .trigger) :: List.replicate 4 (false, .move) ++ List.replicate 4 (true, .move) ++
    (true, .call .wait) :: List.replicate 3 (true, .move)

end SyncObject
end AetherClient.ActionTrigger
