import AetherClient.Runs
import AetherClient.Tables

set_option autoImplicit false

/-!
# The action registry

`ActionRegistry` is a list of counted entries, each with a pointer to an action. Every action
owns an `IndexShare` of its entry, views of the action own others, and `ActionProcessor::Update`
takes one of every entry for as long as it runs. An action that is moved takes its entry along.

A share is an iterator into the list, or nothing when its registry pointer is null. A step is
undefined when it follows an iterator of an erased entry, when the assertion in the destructor of
a share fails, and when `Update` calls an action that is gone.
-/
namespace AetherClient

structure ActionIndex where
  iterator : ℕ
  counter : ℕ
  action : Option ℕ

abbrev IndexShare := Option ℕ

/-- A live `Action` with its `index_`. An action that is moved stays the same action at another
address, which `identity` remembers. -/
structure ActionObject where
  index : IndexShare
  identity : ℕ

/-- A running `ActionProcessor::Update`: its copy of the registry, what is left of it, and the
actions that it has called. -/
structure UpdateLoop where
  replica : List ℕ
  rest : List ℕ
  called : List ℕ

structure ActionRegistry where
  actionList : List ActionIndex := []
  fresh : ℕ := 0
  actions : AList (fun _ : ℕ => ActionObject) := ∅
  shares : AList (fun _ : ℕ => IndexShare) := ∅
  updates : List UpdateLoop := []

namespace ActionRegistry

def find (w : ActionRegistry) (i : ℕ) : Option ActionIndex :=
  w.actionList.find? fun e => e.iterator = i

def modify (w : ActionRegistry) (i : ℕ) (f : ActionIndex → ActionIndex) : ActionRegistry :=
  { w with actionList := w.actionList.map fun e => if e.iterator = i then f e else e }

/-- One more share on the entry: the constructors of `IndexShare` that copy. -/
def acquire (w : ActionRegistry) : IndexShare → Option ActionRegistry
  | none => some w
  | some i => (w.find i).map fun _ => w.modify i fun e => { e with counter := e.counter + 1 }

def release (w : ActionRegistry) : IndexShare → Option ActionRegistry
  | none => some w
  | some i => (w.find i).bind fun e =>
      if e.counter = 0 then none
      else if e.counter = 1 then
        some { w with actionList := w.actionList.filter fun e => e.iterator ≠ i }
      else some (w.modify i fun e => { e with counter := e.counter - 1 })

def setAction (w : ActionRegistry) (action : Option ℕ) : IndexShare → Option ActionRegistry
  | none => some w
  | some i => (w.find i).map fun _ => w.modify i fun e => { e with action }

def register (w : ActionRegistry) (a : ℕ) : ActionRegistry :=
  { w with actionList := w.actionList ++ [⟨w.fresh, 1, some a⟩], fresh := w.fresh + 1 }

def setObject (w : ActionRegistry) (a : ℕ) (o : ActionObject) : ActionRegistry :=
  { w with actions := w.actions.insert a o }

def setShare (w : ActionRegistry) (s : ℕ) (it : IndexShare) : ActionRegistry :=
  { w with shares := w.shares.insert s it }

/-- The move of `b` into `a`, which is new or assigned to. The old entry of `a` is not released. -/
def moveAction (w : ActionRegistry) (a b : ℕ) (o : ActionObject) : Option ActionRegistry :=
  ((w.setObject a o).setObject b { o with index := none }).setAction (some a) o.index

def replicate (w : ActionRegistry) : ActionRegistry :=
  let its := w.actionList.map ActionIndex.iterator
  { w with
    actionList := w.actionList.map fun e => { e with counter := e.counter + 1 }
    updates := ⟨its, its, []⟩ :: w.updates }

def releaseAll (w : ActionRegistry) : List ℕ → Option ActionRegistry
  | [] => some w
  | i :: is => (w.release (some i)).bind fun w' => w'.releaseAll is

def callNext (w : ActionRegistry) : Option ActionRegistry :=
  match w.updates with
  | ⟨replica, i :: rest, called⟩ :: loops =>
    (w.find i).bind fun e =>
      match e.action with
      | none => some { w with updates := ⟨replica, rest, called⟩ :: loops }
      | some a => (w.actions.lookup a).map fun o =>
          { w with updates := ⟨replica, rest, called ++ [o.identity]⟩ :: loops }
  | _ => some w

def endUpdate (w : ActionRegistry) : Option ActionRegistry :=
  match w.updates with
  | ⟨replica, [], _⟩ :: loops => { w with updates := loops }.releaseAll replica
  | _ => some w

end ActionRegistry

/-- What may happen to the registry. Actions and shares are named by where they are; between
`beginUpdate` and `endUpdate` any other events may be made by the actions that are called. -/
inductive RegistryEvent where
  | construct (a : ℕ)
  | constructDefault (a : ℕ)
  | moveConstruct (a b : ℕ)
  | moveAssign (a b : ℕ)
  | destroy (a : ℕ)
  | newShare (s : ℕ)
  | copyShare (s t : ℕ)
  | copyIndex (s a : ℕ)
  | moveShare (s t : ℕ)
  | assignShare (s t : ℕ)
  | assignMoveShare (s t : ℕ)
  | destroyShare (s : ℕ)
  | beginUpdate
  | callNext
  | endUpdate

namespace ActionRegistry
open Runs

/-- Nothing can be constructed where something is, and only what is there can be used: other
events do not happen. -/
def step (w : ActionRegistry) : RegistryEvent → Option ActionRegistry
  | .construct a =>
    match w.actions.lookup a with
    | some _ => some w
    | none => some ((w.register a).setObject a ⟨some w.fresh, w.fresh⟩)
  | .constructDefault a =>
    match w.actions.lookup a with
    | some _ => some w
    | none => some ({ w with fresh := w.fresh + 1 }.setObject a ⟨none, w.fresh⟩)
  | .moveConstruct a b =>
    match w.actions.lookup a, w.actions.lookup b with
    | none, some o => w.moveAction a b o
    | _, _ => some w
  | .moveAssign a b =>
    if a = b then some w else
    match w.actions.lookup a, w.actions.lookup b with
    | some _, some o => w.moveAction a b o
    | _, _ => some w
  | .destroy a =>
    match w.actions.lookup a with
    | none => some w
    | some o => (w.setAction none o.index).bind fun w' =>
        { w' with actions := w'.actions.erase a }.release o.index
  | .newShare s =>
    match w.shares.lookup s with
    | some _ => some w
    | none => some (w.setShare s none)
  | .copyShare s t =>
    match w.shares.lookup s, w.shares.lookup t with
    | none, some it => (w.acquire it).map fun w' => w'.setShare s it
    | _, _ => some w
  | .copyIndex s a =>
    match w.shares.lookup s, w.actions.lookup a with
    | none, some o => (w.acquire o.index).map fun w' => w'.setShare s o.index
    | _, _ => some w
  | .moveShare s t =>
    match w.shares.lookup s, w.shares.lookup t with
    | none, some it => some ((w.setShare s it).setShare t none)
    | _, _ => some w
  | .assignShare s t =>
    if s = t then some w else
    match w.shares.lookup s, w.shares.lookup t with
    | some _, some it => (w.acquire it).map fun w' => w'.setShare s it
    | _, _ => some w
  | .assignMoveShare s t =>
    if s = t then some w else
    match w.shares.lookup s, w.shares.lookup t with
    | some _, some it => some ((w.setShare s it).setShare t none)
    | _, _ => some w
  | .destroyShare s =>
    match w.shares.lookup s with
    | none => some w
    | some it => { w with shares := w.shares.erase s }.release it
  | .beginUpdate => some w.replicate
  | .callNext => w.callNext
  | .endUpdate => w.endUpdate

def held (w : ActionRegistry) : List ℕ :=
  (Tables.values w.shares).filterMap id ++ (Tables.values w.actions).filterMap ActionObject.index ++
    w.updates.flatMap UpdateLoop.replica

structure BooksInOrder (w : ActionRegistry) : Prop where
  /-- Each live registered action is pointed to by exactly one entry. -/
  once : ∀ a o i, w.actions.lookup a = some o → o.index = some i →
    w.actionList.countP (fun e => e.action = some a) = 1
  /-- An entry points to a live action that was not moved from. -/
  live : ∀ e ∈ w.actionList, ∀ a, e.action = some a →
    ∃ o i, w.actions.lookup a = some o ∧ o.index = some i
  counter : ∀ e ∈ w.actionList, e.counter = w.held.count e.iterator
  shared : ∀ e ∈ w.actionList, 0 < e.counter
  called : ∀ l ∈ w.updates, l.called.Nodup

/-- An assignment has a target without an entry: it would forget to release it. -/
def Releases (w : ActionRegistry) : RegistryEvent → Prop
  | .moveAssign a b => a ≠ b → ∀ o, w.actions.lookup a = some o → o.index ≠ none →
      w.actions.lookup b = none
  | .assignShare s t | .assignMoveShare s t => s ≠ t → ∀ i, w.shares.lookup s = some (some i) →
      w.shares.lookup t = none
  | _ => True

end ActionRegistry
end AetherClient
