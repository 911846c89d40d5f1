import AetherClient.Runs
import AetherClient.StdMap
import AetherClient.Tables

set_option autoImplicit false

/-!
# Answers to requests

A request takes the next value of a counter of 16 bits, which all protocol contexts share, as its id
and leaves a callback in the table of its own context. A `SendResult` with that id calls the callback and erases it when
it has returned. The callback parses the rest of the result, and whatever it notifies may make
requests and parse packets of its own before it returns.

The map of the context has keys of 32 bits, but all ids that get there have 16.
-/
namespace AetherClient

open StdMap (Map)
open Tables

/-- `ProtocolContext` with the counter of `RequestId::GenRequestId`. The callbacks are numbered in
the order of the requests. -/
structure SendResultCallbacks where
  sendResultCallbacks : Map 16 ℕ := {}
  requestId : BitVec 16 := 1
  requests : ℕ := 0
  /-- The entries whose callbacks have not returned, the innermost first. -/
  running : List (BitVec 16 × ℕ) := []
  calls : List (BitVec 16 × Option ℕ) := []

inductive RequestEvent where
  | request
  /-- A request of another context takes an id. -/
  | genRequestId
  | result (id : BitVec 16)
  | ret
deriving DecidableEq, Repr

namespace SendResultCallbacks

def addSendResultCallback (c : SendResultCallbacks) (id : BitVec 16) (callback : ℕ) :
    SendResultCallbacks :=
  { c with sendResultCallbacks := c.sendResultCallbacks.emplace id callback }

def request (c : SendResultCallbacks) : SendResultCallbacks :=
  let id := c.requestId
  { c with requestId := c.requestId + 1, requests := c.requests + 1 }.addSendResultCallback id c.requests

/-- The part of `SetSendResultResponse` up to the callback. Without one the parser is cancelled:
it has no further results then. -/
def result (c : SendResultCallbacks) (id : BitVec 16) : SendResultCallbacks :=
  match c.sendResultCallbacks.lookup id with
  | some callback =>
    { c with running := (id, callback) :: c.running, calls := c.calls ++ [(id, some callback)] }
  | none => { c with calls := c.calls ++ [(id, none)] }

def ret (c : SendResultCallbacks) : Option SendResultCallbacks :=
  match c.running with
  | [] => none
  | (id, callback) :: running =>
    if c.sendResultCallbacks.lookup id = some callback then
      some { c with sendResultCallbacks := c.sendResultCallbacks.erase id, running }
    else none

def step (c : SendResultCallbacks) : RequestEvent → Option SendResultCallbacks
  | .request => some c.request
  | .genRequestId => some { c with requestId := c.requestId + 1 }
  | .result id => some (c.result id)
  | .ret => c.ret

end SendResultCallbacks

/-- What the callbacks are for: the requests without an answer, the newest first. -/
structure OpenRequests where
  unanswered : List (BitVec 16 × ℕ) := []
  requestId : BitVec 16 := 1
  requests : ℕ := 0
  calls : List (BitVec 16 × Option ℕ) := []

namespace OpenRequests

def step (o : OpenRequests) : RequestEvent → OpenRequests
  | .request =>
    { o with
      unanswered := (o.requestId, o.requests) :: o.unanswered
      requestId := o.requestId + 1
      requests := o.requests + 1 }
  | .genRequestId => { o with requestId := o.requestId + 1 }
  | .result id =>
    { o with
      unanswered := o.unanswered.eraseP fun r => r.1 = id
      calls := o.calls ++ [(id, o.unanswered.lookup id)] }
  | .ret => o

def run (o : OpenRequests) (events : List RequestEvent) : OpenRequests := events.foldl step o

theorem run_snoc (o : OpenRequests) (events : List RequestEvent) (e : RequestEvent) :
    o.run (events ++ [e]) = (o.run events).step e := by
  rw [run, List.foldl_append]
  rfl

end OpenRequests

namespace SendResultCallbacks

/-- A request finds its id free, and no result comes for a callback that is running. -/
def Orderly (c : SendResultCallbacks) : RequestEvent → Prop
  | .request => c.sendResultCallbacks.lookup c.requestId = none
  | .genRequestId => True
  | .result id => id ∉ c.running.map Prod.fst
  | .ret => c.running ≠ []

instance (c : SendResultCallbacks) : ∀ e, Decidable (Orderly c e)
  | .request => inferInstanceAs (Decidable (_ = _))
  | .genRequestId => inferInstanceAs (Decidable True)
  | .result _ => inferInstanceAs (Decidable (_ ∉ _))
  | .ret => inferInstanceAs (Decidable (_ ≠ _))

structure Follows (c : SendResultCallbacks) (o : OpenRequests) : Prop where
  requestId : c.requestId = o.requestId
  requests : c.requests = o.requests
  calls : c.calls = o.calls
  running : ∀ e ∈ c.running, c.sendResultCallbacks.lookup e.1 = some e.2
  answered : ∀ e ∈ c.running, o.unanswered.lookup e.1 = none
  distinct : (c.running.map Prod.fst).Nodup
  waiting : ∀ id ∉ c.running.map Prod.fst, c.sendResultCallbacks.lookup id = o.unanswered.lookup id
  unique : (o.unanswered.map Prod.fst).Nodup

section Steps
variable {c c' : SendResultCallbacks} {o : OpenRequests}

theorem follows_init : Follows {} {} where
  requestId := rfl
  requests := rfl
  calls := rfl
  running := by simp
  answered := by simp
  distinct := by simp
  waiting := fun _ _ => rfl
  unique := by simp

theorem lookup_request (hfree : c.sendResultCallbacks.lookup c.requestId = none) (id : BitVec 16) :
    c.request.sendResultCallbacks.lookup id =
      if id = c.requestId then some c.requests else c.sendResultCallbacks.lookup id := by
  simp only [request, addSendResultCallback, StdMap.Map.emplace, hfree, Option.isSome_none,
    Bool.false_eq_true, if_false]
  split
  · next heq => rw [heq, StdMap.Map.lookup_insert_self]
  · next hne => rw [StdMap.Map.lookup_insert_of_ne hne]

theorem Follows.request (h : Follows c o) (hfree : Orderly c .request) :
    Follows c.request (o.step .request) := by
  have hlookup := lookup_request hfree
  have hnew : c.requestId ∉ c.running.map Prod.fst := by
    intro hmem
    obtain ⟨e, he, hid⟩ := List.mem_map.mp hmem
    have hrunning := h.running e he
    rw [hid, hfree] at hrunning
    cases hrunning
  have hne : ∀ e ∈ c.running, e.1 ≠ c.requestId := by
    intro e he hid
    exact hnew (hid ▸ List.mem_map_of_mem he)
  have hunanswered : o.unanswered.lookup c.requestId = none := by
    rw [← h.waiting _ hnew]
    exact hfree
  refine ⟨?_, ?_, h.calls, ?_, ?_, h.distinct, ?_, ?_⟩
  · exact congrArg (· + 1) h.requestId
  · exact congrArg (· + 1) h.requests
  · intro e he
    rw [hlookup, if_neg (hne e he)]
    exact h.running e he
  · intro e he
    rw [OpenRequests.step, ← h.requestId, List.lookup_cons, beq_eq_false_iff_ne.mpr (hne e he)]
    exact h.answered e he
  · intro id hid
    rw [hlookup, OpenRequests.step, ← h.requestId, ← h.requests, List.lookup_cons]
    by_cases heq : id = c.requestId
    · rw [if_pos heq, heq, beq_self_eq_true]
    · rw [if_neg heq, beq_eq_false_iff_ne.mpr heq]
      exact h.waiting id hid
  · rw [OpenRequests.step, ← h.requestId, List.map_cons, List.nodup_cons]
    refine ⟨?_, h.unique⟩
    intro hmem
    obtain ⟨e, he, hid⟩ := List.mem_map.mp hmem
    have hnone := List.lookup_eq_none_iff.mp hunanswered e he
    simp [hid] at hnone

theorem Follows.result (h : Follows c o) {id : BitVec 16} (hidle : Orderly c (.result id)) :
    Follows (c.result id) (o.step (.result id)) := by
  have hsame := h.waiting id hidle
  have hunique : ((o.unanswered.eraseP fun r => r.1 = id).map Prod.fst).Nodup :=
    (List.eraseP_sublist.map Prod.fst).nodup h.unique
  have hne : ∀ e ∈ c.running, e.1 ≠ id := by
    intro e he hid
    exact hidle (hid ▸ List.mem_map_of_mem he)
  rw [SendResultCallbacks.result]
  cases hlookup : c.sendResultCallbacks.lookup id with
  | none =>
    have hcalls : c.calls ++ [(id, none)] = (o.step (.result id)).calls := by
      rw [OpenRequests.step, ← hsame, hlookup, h.calls]
    refine ⟨h.requestId, h.requests, hcalls, h.running, ?_, h.distinct, ?_, hunique⟩
    · intro e he
      rw [OpenRequests.step, lookup_eraseP_of_ne (hne e he)]
      exact h.answered e he
    · intro id' hid'
      rw [OpenRequests.step]
      by_cases heq : id' = id
      · rw [heq, lookup_eraseP_self h.unique]
        exact hlookup
      · rw [lookup_eraseP_of_ne heq]
        exact h.waiting id' hid'
  | some callback =>
    have hcalls : c.calls ++ [(id, some callback)] = (o.step (.result id)).calls := by
      rw [OpenRequests.step, ← hsame, hlookup, h.calls]
    refine ⟨h.requestId, h.requests, hcalls, ?_, ?_, List.nodup_cons.mpr ⟨hidle, h.distinct⟩, ?_,
      hunique⟩
    · intro e he
      obtain rfl | he := List.mem_cons.mp he
      · exact hlookup
      · exact h.running e he
    · intro e he
      rw [OpenRequests.step]
      obtain rfl | he := List.mem_cons.mp he
      · exact lookup_eraseP_self h.unique
      · rw [lookup_eraseP_of_ne (hne e he)]
        exact h.answered e he
    · intro id' hid'
      rw [List.map_cons, List.mem_cons, not_or] at hid'
      rw [OpenRequests.step, lookup_eraseP_of_ne hid'.1]
      exact h.waiting id' hid'.2

theorem Follows.ret (h : Follows c o) (hrunning : Orderly c .ret) :
    ∃ c', c.ret = some c' ∧ Follows c' o := by
  cases heq : c.running with
  | nil => exact absurd heq hrunning
  | cons e running =>
    have hmem : ∀ e' ∈ running, e' ∈ c.running := by
      intro e' he'
      rw [heq]
      exact List.mem_cons_of_mem e he'
    have hfirst : e ∈ c.running := heq ▸ List.mem_cons_self
    have hdistinct := h.distinct
    rw [heq, List.map_cons, List.nodup_cons] at hdistinct
    have hne : ∀ e' ∈ running, e'.1 ≠ e.1 := by
      intro e' he' hid
      exact hdistinct.1 (hid ▸ List.mem_map_of_mem he')
    refine ⟨{ c with sendResultCallbacks := c.sendResultCallbacks.erase e.1, running }, ?_, ?_⟩
    · rw [SendResultCallbacks.ret, heq]
      exact if_pos (h.running e hfirst)
    · refine ⟨h.requestId, h.requests, h.calls, ?_, ?_, hdistinct.2, ?_, h.unique⟩
      · intro e' he'
        rw [StdMap.Map.lookup_erase_of_ne (hne e' he')]
        exact h.running e' (hmem e' he')
      · exact fun e' he' => h.answered e' (hmem e' he')
      · intro id hid
        by_cases hsame : id = e.1
        · rw [hsame, StdMap.Map.lookup_erase_self, h.answered e hfirst]
        · rw [StdMap.Map.lookup_erase_of_ne hsame]
          apply h.waiting
          rw [heq, List.map_cons, List.mem_cons, not_or]
          exact ⟨hsame, hid⟩

theorem Follows.step (h : Follows c o) {e : RequestEvent} (horderly : Orderly c e) :
    ∃ c', c.step e = some c' ∧ Follows c' (o.step e) := by
  cases e with
  | request => exact ⟨c.request, rfl, h.request horderly⟩
  | genRequestId => exact ⟨_, rfl, { h with requestId := congrArg (· + 1) h.requestId }⟩
  | result id => exact ⟨c.result id, rfl, h.result horderly⟩
  | ret => exact h.ret horderly

theorem Follows.run {events : List RequestEvent} (h : Follows c o)
    (horderly : Runs.Along SendResultCallbacks.step Orderly c events) :
    ∃ c', Runs.run SendResultCallbacks.step c events = some c' ∧ Follows c' (o.run events) := by
  induction events generalizing c o with
  | nil => exact ⟨c, rfl, h⟩
  | cons e events ih =>
    obtain ⟨hfirst, hrest⟩ := horderly
    obtain ⟨c₁, hstep, h₁⟩ := h.step hfirst
    rw [hstep] at hrest
    obtain ⟨c', hrun, h'⟩ := ih h₁ hrest
    refine ⟨c', ?_, h'⟩
    rw [Runs.run, hstep]
    exact hrun

end Steps

theorem calls_eq_of_orderly {events : List RequestEvent}
    (h : Runs.Along step Orderly {} events) :
    ∃ c, Runs.run step {} events = some c ∧
      c.calls = (({} : OpenRequests).run events).calls := by
  obtain ⟨c, hrun, hfollows⟩ := follows_init.run h
  exact ⟨c, hrun, hfollows.calls⟩

/-- Two requests around one of another context, of which the second is answered first, and a result
that nobody waits for. -/
theorem calls_eq_of_orderly_two_requests :
    ∃ c, Runs.run step {}
        [.request, .genRequestId, .request, .result 3, .ret, .result 1, .ret, .result 9] = some c ∧
      c.calls = (({} : OpenRequests).run
        [.request, .genRequestId, .request, .result 3, .ret, .result 1, .ret, .result 9]).calls :=
  calls_eq_of_orderly (by decide)

theorem run_requests (n : ℕ) :
    ∃ c, Runs.run step {} (List.replicate (n + 1) .request) = some c ∧ c.calls = [] ∧
      c.sendResultCallbacks.lookup 1 = some 0 := by
  induction n with
  | zero => exact ⟨_, rfl, rfl, rfl⟩
  | succ n ih =>
    obtain ⟨c, hrun, hcalls, hfirst⟩ := ih
    refine ⟨c.request, ?_, hcalls, StdMap.Map.lookup_emplace_of_some hfirst⟩
    rw [List.replicate_succ', Runs.run_snoc .request hrun]
    rfl

theorem openRequests_run_requests (n : ℕ) :
    (({} : OpenRequests).run (List.replicate n .request)).requestId = BitVec.ofNat 16 (n + 1) ∧
      (({} : OpenRequests).run (List.replicate n .request)).requests = n ∧
      (({} : OpenRequests).run (List.replicate n .request)).calls = [] := by
  induction n with
  | zero => exact ⟨rfl, rfl, rfl⟩
  | succ n ih =>
    obtain ⟨hid, hrequests, hcalls⟩ := ih
    rw [List.replicate_succ', OpenRequests.run_snoc]
    simp only [OpenRequests.step, hid, hrequests, hcalls, and_true]
    exact (BitVec.ofNat_add (n + 1) 1).symm

/-- The first of 65537 requests is never answered. The last one has the same id, but its callback is
not taken into the table, and the answer to it goes to the first one. -/
theorem calls_ne_after_65537_requests :
    ¬ ∀ (events : List RequestEvent) (c : SendResultCallbacks),
      Runs.run step {} events = some c → c.calls = (({} : OpenRequests).run events).calls := by
  intro h
  obtain ⟨c, hrun, hcalls, hfirst⟩ := run_requests 65536
  obtain ⟨hid, hrequests, hspec⟩ := openRequests_run_requests 65536
  have hcode : (c.result 1).calls = [(1, some 0)] := by
    rw [result, hfirst]
    simp only [hcalls, List.nil_append]
  have hsame : BitVec.ofNat 16 (65536 + 1) = 1 := rfl
  have hlast : (({} : OpenRequests).run
      (List.replicate (65536 + 1) .request ++ [.result 1])).calls = [(1, some 65536)] := by
    rw [OpenRequests.run_snoc, List.replicate_succ', OpenRequests.run_snoc]
    simp only [OpenRequests.step, hid, hrequests, hspec, hsame, List.nil_append,
      List.lookup_cons, beq_self_eq_true]
  have heq := h _ _ (Runs.run_snoc (.result 1) hrun)
  rw [hcode, hlast] at heq
  exact absurd heq (by decide)

end SendResultCallbacks

end AetherClient
