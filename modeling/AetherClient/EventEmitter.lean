import Mathlib.Data.List.AList
import AetherClient.Runs

set_option autoImplicit false

/-!
# Emission of an event

`Emit` goes over a copy of the list of subscriptions and forwards its arguments to every handler
that is alive. A handler may subscribe and unsubscribe handlers and emit the same event again, so
a state has a stack of running `Emit`s, each with the handler whose callback it is in.

A subscription refers to its handler weakly: the handler is there as long as its `Subscription`
holds it, and also as long as its callback runs. What is left of the arguments after they were
forwarded is up to their type: `moved` is the identity for references and for types that are
copied.
-/
namespace AetherClient

structure EventHandler where
  alive : Bool
  once : Bool
  owned : Bool

/-- A running `Emit`: the arguments it was called with, what they are now, the rest of its list
and the handler whose callback runs. -/
structure Emission (α : Type) where
  passed : α
  args : α
  rest : List ℕ
  running : ℕ

inductive Observed (α : Type) where
  | emit (args : α)
  | call (handler : ℕ) (args : α)
  | done
deriving DecidableEq

inductive EmitterEvent (α : Type) where
  | subscribe (handler : ℕ) (once : Bool)
  | unsubscribe (handler : ℕ)
  | emit (args : α)
  | finish

structure EventEmitter (α : Type) where
  handlers : AList (fun _ : ℕ => EventHandler) := ∅
  subscriptions : List ℕ := []
  emissions : List (Emission α) := []
  log : List (Observed α) := []

namespace EventEmitter
variable {α : Type}

def isRunning (w : EventEmitter α) (h : ℕ) : Bool := w.emissions.any fun f => f.running = h

def lock (w : EventEmitter α) (h : ℕ) : Option EventHandler :=
  (w.handlers.lookup h).filter fun x => x.owned || w.isRunning h

def isAlive (w : EventEmitter α) (h : ℕ) : Bool := (w.lock h).any EventHandler.alive

/-- The loop of `Emit` up to the next callback, or to the end with the dead subscriptions cleaned
up. -/
def invokeNext (moved : α → α) (w : EventEmitter α) (passed args : α) (rest : List ℕ) :
    EventEmitter α :=
  match rest.dropWhile fun h => !w.isAlive h with
  | [] => { w with subscriptions := w.subscriptions.filter w.isAlive, log := w.log ++ [.done] }
  | h :: rest =>
    { w with
      emissions := ⟨passed, moved args, rest, h⟩ :: w.emissions
      log := w.log ++ [.call h args] }

/-- The end of `EventHandler::invoke`: a handler marked `Once` dies after its callback. -/
def retire (handlers : AList (fun _ : ℕ => EventHandler)) (h : ℕ) :
    AList (fun _ : ℕ => EventHandler) :=
  match handlers.lookup h with
  | some x => if x.once then handlers.insert h { x with alive := false } else handlers
  | none => handlers

def returned (w : EventEmitter α) (f : Emission α) (outer : List (Emission α)) : EventEmitter α :=
  { w with handlers := retire w.handlers f.running, emissions := outer }

def step (moved : α → α) (w : EventEmitter α) : EmitterEvent α → EventEmitter α
  | .subscribe h once =>
    match w.handlers.lookup h with
    | some _ => w
    | none =>
      { w with
        handlers := w.handlers.insert h ⟨true, once, true⟩
        subscriptions := w.subscriptions ++ [h] }
  | .unsubscribe h =>
    match w.handlers.lookup h with
    | some x => { w with handlers := w.handlers.insert h { x with owned := false } }
    | none => w
  | .emit args => { w with log := w.log ++ [Observed.emit args] }.invokeNext moved args args w.subscriptions
  | .finish =>
    match w.emissions with
    | [] => w
    | f :: outer => (w.returned f outer).invokeNext moved f.passed f.args f.rest

/-- The callback of the handler runs, and it should not be called again: it is marked `Once`, or
it was unsubscribed. -/
def isStale (w : EventEmitter α) (h : ℕ) : Bool :=
  w.isRunning h && (w.handlers.lookup h).any fun x => x.once || !x.owned

def Fresh (w : EventEmitter α) (rest : List ℕ) : Prop :=
  ∀ h ∈ rest.find? w.isAlive, w.isStale h = false

/-- No `Emit` gets to a stale handler, and it calls a second handler only if the arguments are
still what they were. -/
def Undisturbed (w : EventEmitter α) : EmitterEvent α → Prop
  | .subscribe _ _ | .unsubscribe _ => True
  | .emit _ => w.Fresh w.subscriptions
  | .finish =>
    match w.emissions with
    | [] => True
    | f :: outer => (w.returned f outer).Fresh f.rest ∧
        (f.rest.find? (w.returned f outer).isAlive ≠ none → f.args = f.passed)

end EventEmitter

structure ExpectedEmission (α : Type) where
  args : α
  rest : List ℕ
  running : ℕ

/-- The handlers that are subscribed, in the order of their subscription. A handler marked `Once`
is not subscribed any more as soon as it is called. -/
structure ExpectedEvent (α : Type) where
  known : List ℕ := []
  once : List ℕ := []
  subscribed : List ℕ := []
  emissions : List (ExpectedEmission α) := []
  log : List (Observed α) := []

namespace ExpectedEvent
variable {α : Type}

def remove (w : ExpectedEvent α) (h : ℕ) : List ℕ := w.subscribed.filter fun k => k ≠ h

def callNext (w : ExpectedEvent α) (args : α) (rest : List ℕ) : ExpectedEvent α :=
  match rest.dropWhile fun h => h ∉ w.subscribed with
  | [] => { w with log := w.log ++ [.done] }
  | h :: rest =>
    { w with
      subscribed := if h ∈ w.once then w.remove h else w.subscribed
      emissions := ⟨args, rest, h⟩ :: w.emissions
      log := w.log ++ [.call h args] }

def step (w : ExpectedEvent α) : EmitterEvent α → ExpectedEvent α
  | .subscribe h once =>
    if h ∈ w.known then w else
    { w with
      known := w.known ++ [h]
      once := if once then w.once ++ [h] else w.once
      subscribed := w.subscribed ++ [h] }
  | .unsubscribe h => { w with subscribed := w.remove h }
  | .emit args => { w with log := w.log ++ [Observed.emit args] }.callNext args w.subscribed
  | .finish =>
    match w.emissions with
    | [] => w
    | f :: outer => { w with emissions := outer }.callNext f.args f.rest

end ExpectedEvent

structure EventRun (α : Type) where
  emitter : EventEmitter α := {}
  expected : ExpectedEvent α := {}

namespace EventRun
variable {α : Type}

def step (moved : α → α) (w : EventRun α) (e : EmitterEvent α) : Option (EventRun α) :=
  some ⟨w.emitter.step moved e, w.expected.step e⟩

def calls (log : List (Observed α)) (h : ℕ) : ℕ :=
  log.countP fun o => match o with
    | .call k _ => k = h
    | _ => false

/-- The handlers are called as they should be, and those marked `Once` at most once. -/
structure AsExpected (w : EventRun α) : Prop where
  log : w.emitter.log = w.expected.log
  once : ∀ h ∈ w.expected.once, calls w.emitter.log h ≤ 1

end EventRun
end AetherClient
