import AetherClient.Actions
import AetherClient.BufferGateSteps
import AetherClient.Runs
import Mathlib.Logic.Function.Basic

set_option autoImplicit false

namespace AetherClient

inductive WriteOutcome where
  | result
  | error
  | stopped
  deriving DecidableEq, Repr

inductive BufferStopEvent (Data : Type) where
  | write (data : Data)
  | linkOut
  | update (info : StreamInfo)
  | stop (id : ℕ)
  | updateAction (id : ℕ)
  | outState (id : ℕ) (state : StreamWriteState)
  | outFinish (id : ℕ) (outcome : WriteOutcome)
  | ret

structure StoppableBufferGate (Data : Type) where
  gate : BufferGate Data
  state : ℕ → StateMachine StreamWriteState := fun _ => ⟨.queued, true⟩
  outState : ℕ → StreamWriteState := fun _ => .queued
  outcome : ℕ → Option WriteOutcome := fun _ => none
  handed : List ℕ := []
  /-- The buffered writes that were stopped before the out gate was handed them. -/
  stopped : List ℕ := []
  reports : List (ℕ × WriteOutcome) := []

namespace BufferGate
variable {Data : Type}

def find (w : BufferGate Data) (id : ℕ) : Option (BufferedWriteAction Data) :=
  w.writeInBuffer.find? fun a => a.id = id

def call (w : BufferGate Data) (f : BufferGateFrame) : BufferGate Data :=
  { w with frames := f :: w.frames }

def sentIds (w : BufferGate Data) : List ℕ :=
  (w.writeInBuffer.filter fun a => a.isSent).map BufferedWriteAction.id

end BufferGate

namespace StoppableBufferGate
open Runs
variable {Data : Type}

def log (w : StoppableBufferGate Data) (gate : BufferGate Data) : StoppableBufferGate Data :=
  { w with gate := gate, handed := w.handed ++ gate.sentIds }

/-- `state_ = value`, which tells the subscribers of `changed_event` if it is a change. -/
def setState (w : StoppableBufferGate Data) (id : ℕ) (value : StreamWriteState)
    (frame : BufferGateFrame) : StoppableBufferGate Data :=
  if (w.state id).state ≠ value then
    { w with
      state := Function.update w.state id ((w.state id).set value), gate := w.gate.call frame }
  else w

def stop (w : StoppableBufferGate Data) (id : ℕ) : StoppableBufferGate Data :=
  match w.gate.find id with
  | none => w
  | some a =>
    -- `write_action_` is set when `Write` of the out gate returns
    if a.isSent ∧ .sending id ∉ w.gate.frames then { w with gate := w.gate.call (.pinned id) }
    else
      { w.setState id .stopped (.pinned id) with
        stopped := if a.isSent then w.stopped else id :: w.stopped }

def updateAction (w : StoppableBufferGate Data) (id : ℕ) : StoppableBufferGate Data :=
  if (w.gate.find id).isSome ∧ (w.state id).changed then
    let w' := { w with state := Function.update w.state id (w.state id).acquire }
    if (w.state id).state = .stopped then
      { w' with gate := w.gate.call (.finishing id), reports := (id, .stopped) :: w.reports }
    else w'
  else w

def setOutState (w : StoppableBufferGate Data) (id : ℕ) (value : StreamWriteState) :
    StoppableBufferGate Data :=
  if id ∈ w.handed ∧ w.outcome id = none ∧ w.outState id ≠ value then
    let w' := { w with outState := Function.update w.outState id value }
    if (w.gate.find id).any BufferedWriteAction.subscribed then w'.setState id value .callback
    else w'
  else w

def finishOut (w : StoppableBufferGate Data) (id : ℕ) (outcome : WriteOutcome) :
    Option (StoppableBufferGate Data) :=
  if id ∈ w.handed ∧ w.outcome id = none then
    let w' := { w with outcome := Function.update w.outcome id (some outcome) }
    if (w.gate.find id).any BufferedWriteAction.subscribed then
      (w.gate.step (.finish id)).map fun gate => { w' with
        gate := gate, state := Function.update w.state id (w.state id).acquire
        reports := (id, outcome) :: w.reports }
    else some w'
  else some w

def step (w : StoppableBufferGate Data) : BufferStopEvent Data → Option (StoppableBufferGate Data)
  | .write data => (w.gate.step (.write data)).map w.log
  | .linkOut => (w.gate.step .linkOut).map w.log
  | .update info => (w.gate.step (.update info)).map w.log
  | .stop id => some (w.stop id)
  | .updateAction id => some (w.updateAction id)
  | .outState id value => some (w.setOutState id value)
  | .outFinish id outcome => w.finishOut id outcome
  | .ret => (w.gate.step .ret).map w.log

/-- A write that was stopped in time is not handed over, and one that was handed over reports, once,
how the out gate's write action has ended. It may do so when that action is stopped but has not
reported it yet. -/
structure Honest (w : StoppableBufferGate Data) : Prop where
  never : ∀ id ∈ w.stopped, id ∉ w.handed
  once : (w.reports.map Prod.fst).Nodup
  told : ∀ p ∈ w.reports, p.1 ∈ w.handed → w.outcome p.1 = some p.2 ∨
    w.outcome p.1 = none ∧ w.outState p.1 = .stopped ∧ p.2 = .stopped
  outcomes : ∀ id outcome, w.outcome id = some outcome → (id, outcome) ∈ w.reports

def IsStopped (w : StoppableBufferGate Data) (id : ℕ) : Prop := (w.state id).state = .stopped

/-- A stopped write is updated, behind a linked gate, before the list is drained again. The call of
the out gate for a write returns before the write is stopped or ends, and so do the calls in its own
`Write` and `Stop` before it ends; a write action of the out gate that is stopped ends so. -/
def Timely (w : StoppableBufferGate Data) : BufferStopEvent Data → Prop
  | .write _ | .linkOut => True
  | .update info => w.gate.Ready w.IsStopped (.update info)
  | .stop id => .sending id ∉ w.gate.frames
  | .updateAction id => w.IsStopped id → w.gate.linkedOut = true ∧ .pinned id ∉ w.gate.frames
  | .outState id value => w.outState id = .stopped → value = .stopped
  | .outFinish id outcome => id ∉ w.gate.frames.filterMap BufferGateFrame.action ∧
      .pinned id ∉ w.gate.frames ∧ (w.outState id = .stopped → outcome = .stopped)
  | .ret => w.gate.Ready w.IsStopped .ret

instance (w : StoppableBufferGate Data) : DecidablePred w.IsStopped := fun id =>
  inferInstanceAs (Decidable ((w.state id).state = .stopped))

instance (w : StoppableBufferGate Data) : (e : BufferStopEvent Data) → Decidable (w.Timely e)
  | .write _ | .linkOut => inferInstanceAs (Decidable True)
  | .update info => inferInstanceAs (Decidable (w.gate.Ready w.IsStopped (.update info)))
  | .stop id => inferInstanceAs (Decidable (.sending id ∉ w.gate.frames))
  | .updateAction id => inferInstanceAs (Decidable (w.IsStopped id → _ ∧ _))
  | .outState _ _ => inferInstanceAs (Decidable (_ → _))
  | .outFinish _ _ => inferInstanceAs (Decidable (_ ∧ _ ∧ _))
  | .ret => inferInstanceAs (Decidable (w.gate.Ready w.IsStopped .ret))

end StoppableBufferGate

namespace BufferGate
variable {Data : Type} {w w' : BufferGate Data} {a : BufferedWriteAction Data} {id : ℕ}
  {bad bad' ended : ℕ → Prop}

theorem find_eq_some (h : w.find id = some a) : a ∈ w.writeInBuffer ∧ a.id = id := by
  have hp := List.find?_some h
  exact ⟨List.mem_of_find?_eq_some h, of_decide_eq_true hp⟩

theorem find_eq_none (h : w.find id = none) (ha : a ∈ w.writeInBuffer) : a.id ≠ id :=
  fun hid => List.find?_eq_none.mp h a ha (decide_eq_true hid)

theorem Sound.find_eq (hw : Sound w) (ha : a ∈ w.writeInBuffer) : w.find a.id = some a := by
  cases h : w.find a.id with
  | none => exact absurd rfl (find_eq_none h ha)
  | some b =>
    obtain ⟨hb, hid⟩ := find_eq_some h
    rw [hw.eq_of_id hb ha hid]

theorem Free.mono {removing : Option ℕ} (h : w.Free bad' removing)
    (hbad : ∀ a ∈ w.writeInBuffer, ¬a.isSent → bad a.id → bad' a.id) : w.Free bad removing :=
  fun hwr a ha hsent hisbad => h hwr a ha hsent (hbad a ha hsent hisbad)

theorem Ready.mono {e : BufferGateEvent Data} (h : w.Ready bad' e)
    (hbad : ∀ a ∈ w.writeInBuffer, ¬a.isSent → bad a.id → bad' a.id) : w.Ready bad e := by
  cases e with
  | write | linkOut => trivial
  | update => exact fun hsame => (h hsame).mono hbad
  | finish => exact h
  | ret =>
    simp only [Ready] at h ⊢
    split at h
    · trivial
    · trivial
    · trivial
    · exact h.mono hbad
    · exact h.mono hbad

structure Follows (ended : ℕ → Prop) (w w' : BufferGate Data) : Prop where
  fresh : w.fresh ≤ w'.fresh
  calls : ∀ f ∈ w'.frames, f.action ≠ none → f ∈ w.frames
  kept : ∀ a ∈ w.writeInBuffer, (∃ b ∈ w'.writeInBuffer, b.id = a.id) ∨ .finishing a.id ∈ w.frames
  old : ∀ b ∈ w'.writeInBuffer, b.id = w.fresh ∧ ¬b.isSent ∨
    ∃ a ∈ w.writeInBuffer, b.id = a.id ∧ b.isSent = a.isSent ∧
      (.finishing a.id ∈ w.frames → .finishing a.id ∈ w'.frames) ∧
      (.sending a.id ∈ w'.frames → b.subscribed = a.subscribed) ∧
      (¬ended a.id → a.subscribed ∨ .sending a.id ∈ w.frames →
        b.subscribed ∨ .sending a.id ∈ w'.frames)

theorem Follows.of_same (hlist : w'.writeInBuffer = w.writeInBuffer) (hfresh : w'.fresh = w.fresh)
    (hcalls : ∀ f : BufferGateFrame, f.action ≠ none → (f ∈ w'.frames ↔ f ∈ w.frames)) :
    Follows ended w w' where
  fresh := Nat.le_of_eq hfresh.symm
  calls f hf hact := (hcalls f hact).mp hf
  kept a ha := .inl ⟨a, hlist ▸ ha, rfl⟩
  old b hb := .inr ⟨b, hlist ▸ hb, rfl, rfl, (hcalls (.finishing b.id) nofun).mpr, fun _ => rfl,
    fun _ => Or.imp_right (hcalls (.sending b.id) nofun).mpr⟩

theorem mem_frames_cons {f g : BufferGateFrame} {rest : List BufferGateFrame} (hg : g.action = none)
    (hf : f.action ≠ none) : f ∈ g :: rest ↔ f ∈ rest := by
  rw [List.mem_cons, or_iff_right]
  rintro rfl
  exact hf hg

theorem follows_enqueue (data : Data) (info : StreamInfo) (answers : List (WriteAnswer Data)) :
    Follows ended w { w with
      answers := answers, fresh := w.fresh + 1, streamInfo := info
      writeInBuffer := w.writeInBuffer ++ [{ id := w.fresh, data := data }] } where
  fresh := Nat.le_succ _
  calls f hf _ := hf
  kept a ha := .inl ⟨a, List.mem_append_left _ ha, rfl⟩
  old := by
    intro b hb
    obtain hb | hb := List.mem_append.mp hb
    · exact .inr ⟨b, hb, rfl, rfl, fun h => h, fun _ => rfl, fun _ h => h⟩
    · rw [List.mem_singleton.mp hb]
      exact .inl ⟨rfl, Bool.false_ne_true⟩

theorem Sound.follows_subscribe (hw : Sound w) {rest : List BufferGateFrame}
    (h : w.frames = .sending id :: rest) :
    Follows ended w ({ w with frames := rest }.modify id fun a => { a with subscribed := true }) := by
  have hnot : .sending id ∉ rest := fun hmem =>
    (hw.returning h rfl).1 (List.mem_filterMap.mpr ⟨_, hmem, rfl⟩)
  constructor
  case fresh => exact Nat.le_refl _
  case calls => exact fun f hf _ => h ▸ List.mem_cons_of_mem _ hf
  case kept =>
    intro a ha
    obtain ⟨b, hb, hid, -⟩ := mem_subscribe_of_mem ha
    exact .inl ⟨b, hb, hid⟩
  case old =>
    intro b hb
    obtain ⟨a, ha, hid, hsent, hvalue⟩ := mem_subscribe hb
    rw [h]
    refine .inr ⟨a, ha, hid, hsent, fun hmem => ?_, fun hmem => ?_, fun _ hsub => ?_⟩
    · exact (List.mem_cons.mp hmem).resolve_left nofun
    · rw [hvalue, if_neg]
      rintro rfl
      exact hnot hmem
    · by_cases hne : a.id = id
      · rw [hvalue, if_pos hne]
        exact .inl rfl
      · rw [hvalue, if_neg hne]
        apply hsub.imp_right
        intro hmem
        exact (List.mem_cons.mp hmem).resolve_left fun heq => hne (BufferGateFrame.sending.inj heq)

theorem follows_remove {rest : List BufferGateFrame} (h : w.frames = .finishing id :: rest)
    (info : StreamInfo) : Follows ended w { w with
      frames := rest, writeInBuffer := w.writeInBuffer.filter fun a => a.id ≠ id
      streamInfo := info } := by
  constructor
  case fresh => exact Nat.le_refl _
  case calls => exact fun f hf _ => h ▸ List.mem_cons_of_mem _ hf
  case kept =>
    intro a ha
    by_cases hid : a.id = id
    · right
      rw [h, hid]
      exact List.mem_cons_self
    · exact .inl ⟨a, List.mem_filter.mpr ⟨ha, decide_eq_true hid⟩, rfl⟩
  case old =>
    intro b hb
    obtain ⟨hb, hne⟩ := List.mem_filter.mp hb
    rw [h]
    refine .inr ⟨b, hb, rfl, rfl, fun hmem => ?_, fun _ => rfl, fun _ => Or.imp_right fun hmem => ?_⟩
    · exact (List.mem_cons.mp hmem).resolve_left fun heq =>
        of_decide_eq_true hne (BufferGateFrame.finishing.inj heq)
    · exact (List.mem_cons.mp hmem).resolve_left nofun

theorem Sound.follows (hw : Sound w) (h : Quiet w w') : Follows ended w w' := by
  cases h with
  | call f hf => exact .of_same rfl rfl fun g hg => mem_frames_cons hf hg
  | ret f rest h hf =>
    refine .of_same rfl rfl ?_
    intro g hg
    rw [h, mem_frames_cons hf hg]
  | refuse | passOn | link | inform => exact .of_same rfl rfl fun _ _ => Iff.rfl
  | enqueue data => exact follows_enqueue data _ _
  | subscribe id rest h => exact hw.follows_subscribe h
  | remove id rest h => exact follows_remove h _

theorem Sound.not_called (hw : Sound w) {f : BufferGateFrame} (hf : f ∈ w.frames) :
    f.action ≠ some w.fresh := by
  intro hact
  obtain ⟨a, ha, hid, -⟩ := hw.held f hf _ hact
  have hlt := hw.below a ha
  omega

theorem follows_finished (hfree : a.id ∉ w.frames.filterMap BufferGateFrame.action) :
    Follows (· = a.id) (w.call (.finishing a.id)) (w.finished a) := by
  constructor
  case fresh => exact Nat.le_refl _
  case calls => exact fun f hf _ => hf
  case kept =>
    intro b hb
    obtain ⟨c, hc, hid, -⟩ := mem_subscribe_of_mem hb
    exact .inl ⟨c, hc, hid⟩
  case old =>
    intro b hb
    obtain ⟨c, hc, hid, hsent, hvalue⟩ := mem_subscribe hb
    refine .inr ⟨c, hc, hid, hsent, fun hmem => hmem, fun hmem => ?_, fun hne => ?_⟩
    · rw [hvalue, if_neg]
      intro heq
      rw [heq] at hmem
      exact hfree (mem_busy ((List.mem_cons.mp hmem).resolve_left nofun) rfl)
    · rw [hvalue, if_neg hne]
      exact fun hsub => hsub

end BufferGate

namespace StoppableBufferGate
open BufferGate Runs
variable {Data : Type} {w : StoppableBufferGate Data} {a : BufferedWriteAction Data} {id : ℕ}

def Reported (w : StoppableBufferGate Data) (id : ℕ) : Prop := id ∈ w.reports.map Prod.fst

structure Inv (w : StoppableBufferGate Data) : Prop where
  sound : Sound w.gate
  honest : Honest w
  handed : ∀ a ∈ w.gate.writeInBuffer, (a.isSent = true ↔ a.id ∈ w.handed)
  below : ∀ id, id ∈ w.handed ∨ id ∈ w.stopped ∨ w.Reported id → id < w.gate.fresh
  marked : ∀ a ∈ w.gate.writeInBuffer, a.id ∈ w.stopped → w.IsStopped a.id
  agrees : ∀ a ∈ w.gate.writeInBuffer, a.isSent → w.IsStopped a.id → w.outState a.id = .stopped
  leaving : ∀ a ∈ w.gate.writeInBuffer, ¬a.isSent → .finishing a.id ∈ w.gate.frames →
    w.IsStopped a.id
  reporting : ∀ a ∈ w.gate.writeInBuffer, (w.Reported a.id ↔ .finishing a.id ∈ w.gate.frames)
  settled : ∀ f ∈ w.gate.frames, ∀ id, f.action = some id → (w.state id).changed → ¬w.IsStopped id
  unsubscribed : ∀ a ∈ w.gate.writeInBuffer, .sending a.id ∈ w.gate.frames → ¬a.subscribed
  watched : ∀ a ∈ w.gate.writeInBuffer, a.isSent → w.outcome a.id = none →
    a.subscribed ∨ .sending a.id ∈ w.gate.frames
  gone : ∀ id ∈ w.handed, (∀ a ∈ w.gate.writeInBuffer, a.id ≠ id) → w.Reported id

theorem Inv.follows (h : Inv w) {v : BufferGate Data} (hv : Sound v) {ended : ℕ → Prop}
    (hf : Follows ended w.gate v) (hended : ∀ i, ended i → w.outcome i ≠ none) :
    Inv { w with gate := v } := by
  -- nothing is known of a new write
  have hfresh : ¬(w.gate.fresh ∈ w.handed ∨ w.gate.fresh ∈ w.stopped ∨ w.Reported w.gate.fresh) :=
    fun hmem => Nat.lt_irrefl _ (h.below _ hmem)
  have huncalled : ∀ f ∈ v.frames, f.action ≠ some w.gate.fresh := by
    intro f hmem hact
    exact h.sound.not_called (hf.calls f hmem (by rw [hact]; nofun)) hact
  constructor
  case sound => exact hv
  case honest => exact { h.honest with }
  case handed =>
    intro b hb
    obtain ⟨hid, hsent⟩ | ⟨a, ha, hid, hsent, -⟩ := hf.old b hb
    · rw [hid]
      exact ⟨fun hs => absurd hs hsent, fun hmem => absurd (.inl hmem) hfresh⟩
    · rw [hid, hsent]
      exact h.handed a ha
  case below => exact fun i hi => Nat.lt_of_lt_of_le (h.below i hi) hf.fresh
  case marked =>
    intro b hb hstop
    obtain ⟨hid, -⟩ | ⟨a, ha, hid, -⟩ := hf.old b hb
    · rw [hid] at hstop
      exact absurd (.inr (.inl hstop)) hfresh
    · rw [hid] at hstop ⊢
      exact h.marked a ha hstop
  case agrees =>
    intro b hb hs
    obtain ⟨-, hsent⟩ | ⟨a, ha, hid, hsent, -⟩ := hf.old b hb
    · exact absurd hs hsent
    · rw [hid]
      exact h.agrees a ha (hsent ▸ hs)
  case leaving =>
    intro b hb hs hmem
    obtain ⟨hid, -⟩ | ⟨a, ha, hid, hsent, -⟩ := hf.old b hb
    · exact absurd (congrArg some hid) (huncalled _ hmem)
    · rw [hid] at hmem ⊢
      exact h.leaving a ha (hsent ▸ hs) (hf.calls _ hmem nofun)
  case reporting =>
    intro b hb
    obtain ⟨hid, -⟩ | ⟨a, ha, hid, -, hfinish, -⟩ := hf.old b hb
    · constructor
      · intro hr
        rw [hid] at hr
        exact absurd (.inr (.inr hr)) hfresh
      · exact fun hmem => absurd (congrArg some hid) (huncalled _ hmem)
    · rw [hid]
      exact (h.reporting a ha).trans ⟨hfinish, fun hmem => hf.calls _ hmem nofun⟩
  case settled =>
    intro f hmem i hact
    exact h.settled f (hf.calls f hmem (by rw [hact]; nofun)) i hact
  case unsubscribed =>
    intro b hb hmem
    obtain ⟨hid, -⟩ | ⟨a, ha, hid, -, -, hsub, -⟩ := hf.old b hb
    · exact absurd (congrArg some hid) (huncalled _ hmem)
    · rw [hid] at hmem
      rw [hsub hmem]
      exact h.unsubscribed a ha (hf.calls _ hmem nofun)
  case watched =>
    intro b hb hs hout
    obtain ⟨-, hsent⟩ | ⟨a, ha, hid, hsent, -, -, hsub⟩ := hf.old b hb
    · exact absurd hs hsent
    · rw [hid] at hout ⊢
      exact hsub (fun he => hended _ he hout) (h.watched a ha (hsent ▸ hs) hout)
  case gone =>
    intro i hi hno
    by_cases hin : ∃ a ∈ w.gate.writeInBuffer, a.id = i
    · obtain ⟨a, ha, rfl⟩ := hin
      obtain ⟨b, hb, hid⟩ | hmem := hf.kept a ha
      · exact absurd hid (hno b hb)
      · exact (h.reporting a ha).mpr hmem
    · exact h.gone i hi fun a ha hid => hin ⟨a, ha, hid⟩

section Send
variable (h : Inv w) (hs : Sends w.gate a) (hstop : ¬w.IsStopped a.id) {handed : List ℕ}
  (hhanded : ∀ id, id ∈ handed ↔ id ∈ w.handed ∨ id = a.id)
include h hs hstop hhanded

theorem Inv.honest_send : Honest { w with gate := w.gate.send a, handed := handed } := by
  refine { h.honest with never := ?_, told := ?_ }
  · intro i hi hin
    obtain hin | rfl := (hhanded i).mp hin
    · exact h.honest.never i hi hin
    · exact hstop (h.marked a hs.mem hi)
  · intro p hp hin
    obtain hin | heq := (hhanded p.1).mp hin
    · exact h.honest.told p hp hin
    · -- it has not reported anything
      have hfinish := (h.reporting a hs.mem).mp (heq ▸ List.mem_map_of_mem hp)
      exact absurd (mem_busy hfinish rfl) hs.free

theorem Inv.send : Inv { w with gate := w.gate.send a, handed := handed } := by
  have hmem {b : BufferedWriteAction Data} (hb : b ∈ (w.gate.send a).writeInBuffer) :=
    h.sound.mem_send hs.mem hb
  have hframe {f : BufferGateFrame} (hf : f ∈ (w.gate.send a).frames) :
      f = .sending a.id ∨ f ∈ w.gate.frames := List.mem_cons.mp hf
  constructor
  case sound => exact h.sound.sends hs
  case honest => exact h.honest_send hs hstop hhanded
  case handed =>
    intro b hb
    rw [hhanded]
    obtain ⟨hb, hne⟩ | rfl := hmem hb
    · rw [or_iff_left hne]
      exact h.handed b hb
    · exact ⟨fun _ => .inr rfl, fun _ => rfl⟩
  case below =>
    intro i hi
    rw [hhanded, or_assoc, or_left_comm] at hi
    obtain rfl | hi := hi
    · exact h.sound.below a hs.mem
    · exact h.below i hi
  case marked =>
    intro b hb
    obtain ⟨hb, -⟩ | rfl := hmem hb
    · exact h.marked b hb
    · exact h.marked a hs.mem
  case agrees =>
    intro b hb hsent hst
    obtain ⟨hb, -⟩ | rfl := hmem hb
    · exact h.agrees b hb hsent hst
    · exact absurd hst hstop
  case leaving =>
    intro b hb hsent hf
    obtain ⟨hb, -⟩ | rfl := hmem hb
    · exact h.leaving b hb hsent ((hframe hf).resolve_left nofun)
    · exact absurd rfl hsent
  case reporting =>
    intro b hb
    have hframes : .finishing b.id ∈ (w.gate.send a).frames ↔ .finishing b.id ∈ w.gate.frames :=
      ⟨fun hf => (hframe hf).resolve_left nofun, List.mem_cons_of_mem _⟩
    rw [hframes]
    obtain ⟨hb, -⟩ | rfl := hmem hb
    · exact h.reporting b hb
    · exact h.reporting a hs.mem
  case settled =>
    intro f hf i hact
    obtain rfl | hf := hframe hf
    · cases hact
      exact fun _ => hstop
    · exact h.settled f hf i hact
  case unsubscribed =>
    intro b hb hf
    obtain ⟨hb, hne⟩ | rfl := hmem hb
    · refine h.unsubscribed b hb ((hframe hf).resolve_left ?_)
      intro heq
      exact hne (BufferGateFrame.sending.inj heq)
    · exact fun hsub => hs.unsent (h.sound.subscribed a hs.mem hsub)
  case watched =>
    intro b hb hsent hout
    obtain ⟨hb, -⟩ | rfl := hmem hb
    · exact (h.watched b hb hsent hout).imp_right (List.mem_cons_of_mem _)
    · exact .inr List.mem_cons_self
  case gone =>
    intro i hi hno
    have hold : ∀ b ∈ w.gate.writeInBuffer, b.id ≠ i := by
      intro b hb
      by_cases hid : b.id = a.id
      · rw [hid]
        exact hno { a with isSent := true } (List.mem_map.mpr ⟨a, hs.mem, if_pos rfl⟩)
      · exact hno b (List.mem_map.mpr ⟨b, hb, if_neg hid⟩)
    obtain hi | rfl := (hhanded i).mp hi
    · exact h.gone i hi hold
    · exact absurd rfl (hold a hs.mem)

end Send

theorem Inv.quiet (h : Inv w) {v : BufferGate Data} (hq : Quiet w.gate v) :
    Inv { w with gate := v } := by
  have hf : Follows (fun _ => False) w.gate v := h.sound.follows hq
  exact h.follows (h.sound.quiet hq) hf nofun

theorem Inv.call (h : Inv w) {f : BufferGateFrame} (hf : f.returns = true)
    (hpinned : ∀ id, f = .pinned id → ∃ a ∈ w.gate.writeInBuffer, a.id = id) :
    Inv { w with gate := w.gate.call f } := by
  have hact : f.action = none := by
    cases f with
    | callback | pinned => rfl
    | updated | finishing | removed | sending => cases hf
  exact h.quiet (.call f hact (.inl hf) hpinned)

theorem mem_sentIds {v : BufferGate Data} :
    id ∈ v.sentIds ↔ ∃ a ∈ v.writeInBuffer, a.isSent = true ∧ a.id = id := by
  simp [sentIds, and_assoc]

theorem Inv.log (h : Inv w) : Inv (w.log w.gate) := by
  have hmem : ∀ i, i ∈ w.handed ++ w.gate.sentIds ↔ i ∈ w.handed := by
    intro i
    rw [List.mem_append, or_iff_left_of_imp]
    intro hi
    obtain ⟨a, ha, hsent, rfl⟩ := mem_sentIds.mp hi
    exact (h.handed a ha).mp hsent
  refine { h with honest := { h.honest with never := ?_, told := ?_ }, handed := ?_, below := ?_, gone := ?_ }
  · exact fun i hi hin => h.honest.never i hi ((hmem i).mp hin)
  · exact fun p hp hin => h.honest.told p hp ((hmem p.1).mp hin)
  · exact fun a ha => (h.handed a ha).trans (hmem a.id).symm
  · exact fun i hi => h.below i (hi.imp_left (hmem i).mp)
  · exact fun i hi => h.gone i ((hmem i).mp hi)

theorem Inv.mem_log_send (h : Inv w) (hs : Sends w.gate a) :
    id ∈ (w.log (w.gate.send a)).handed ↔ id ∈ w.handed ∨ id = a.id := by
  show id ∈ w.handed ++ (w.gate.send a).sentIds ↔ _
  rw [List.mem_append, mem_sentIds]
  constructor
  · rintro (hid | ⟨b, hb, hsent, rfl⟩)
    · exact .inl hid
    · obtain ⟨hb, -⟩ | rfl := h.sound.mem_send hs.mem hb
      · exact .inl ((h.handed b hb).mp hsent)
      · exact .inr rfl
  · rintro (hid | rfl)
    · exact .inl hid
    · exact .inr ⟨{ a with isSent := true }, List.mem_map.mpr ⟨a, hs.mem, if_pos rfl⟩, rfl, rfl⟩

/-- A call that works on a write that was not handed over reports that it was stopped. -/
theorem Inv.stopped_of_busy (h : Inv w) (ha : a ∈ w.gate.writeInBuffer) (hs : ¬a.isSent)
    {f : BufferGateFrame} (hf : f ∈ w.gate.frames) (hact : f.action = some a.id) :
    w.IsStopped a.id := by
  cases f with
  | callback | pinned | updated | removed => cases hact
  | finishing id =>
    cases hact
    exact h.leaving a ha hs hf
  | sending id =>
    cases hact
    obtain ⟨b, hb, hid, hsent⟩ := h.sound.held _ hf _ rfl
    rw [h.sound.eq_of_id hb ha hid] at hsent
    exact absurd (hsent rfl) hs

theorem Inv.step_gate (h : Inv w) {e : BufferGateEvent Data} (he : ∀ id, e ≠ .finish id)
    (hr : w.gate.Ready w.IsStopped e) : ∃ w', (w.gate.step e).map w.log = some w' ∧ Inv w' := by
  have hready : w.gate.Ready
      (fun id => id ∈ w.gate.frames.filterMap BufferGateFrame.action ∨ w.IsStopped id) e := by
    apply hr.mono
    rintro a ha hs (hbusy | hst)
    · obtain ⟨f, hf, hact⟩ := List.mem_filterMap.mp hbusy
      exact h.stopped_of_busy ha hs hf hact
    · exact hst
  obtain ⟨v, v', hstep, hshape⟩ := h.sound.shape (fun _ => .inl) he hready
  have hv : Inv { w with gate := v } :=
    (quiets_preserve (I := fun v => Inv { w with gate := v }) (fun _ _ _ hi hq => hi.quiet hq)
      h.sound h hshape.quiet).2
  rw [hstep]
  refine ⟨_, rfl, ?_⟩
  obtain rfl | ⟨a, ha, hgood, rfl⟩ := hshape.sends
  · exact hv.log
  · exact hv.send ha (fun hst => hgood (.inr hst)) fun _ => hv.mem_log_send ha

theorem Inv.update_state (h : Inv w) {m : StateMachine StreamWriteState}
    (hkeep : w.IsStopped id → m.state = .stopped)
    (hagrees : m.state = .stopped → ∀ a ∈ w.gate.writeInBuffer, a.id = id → a.isSent →
      w.outState id = .stopped)
    (hsettled : m.changed → m.state = .stopped → ∀ f ∈ w.gate.frames, f.action ≠ some id) :
    Inv { w with state := Function.update w.state id m } := by
  have hself : Function.update w.state id m id = m := Function.update_self ..
  have hother : ∀ i, i ≠ id → Function.update w.state id m i = w.state i :=
    fun i hi => Function.update_of_ne hi ..
  generalize Function.update w.state id m = s at hself hother
  subst hself
  have hstill : ∀ i, w.IsStopped i → (s i).state = .stopped := by
    intro i hi
    by_cases hid : i = id
    · subst hid
      exact hkeep hi
    · rw [hother i hid]
      exact hi
  have hback : ∀ i, i ≠ id → (s i).state = .stopped → w.IsStopped i := by
    intro i hid hst
    rw [hother i hid] at hst
    exact hst
  refine { h with honest := { h.honest with }, marked := ?_, agrees := ?_, leaving := ?_, settled := ?_ }
  · exact fun a ha hs => hstill _ (h.marked a ha hs)
  · intro a ha hs hst
    by_cases hid : a.id = id
    · subst hid
      exact hagrees hst a ha rfl hs
    · exact h.agrees a ha hs (hback _ hid hst)
  · exact fun a ha hs hf => hstill _ (h.leaving a ha hs hf)
  · intro f hf i hact hch hst
    by_cases hid : i = id
    · subst hid
      exact hsettled hch hst f hf hact
    · exact h.settled f hf i hact (hother i hid ▸ hch) (hback i hid hst)

theorem Inv.acquire (h : Inv w) :
    Inv { w with state := Function.update w.state id (w.state id).acquire } := by
  apply h.update_state
  · exact fun hst => hst
  · rintro hst a ha rfl hs
    exact h.agrees a ha hs hst
  · exact nofun

theorem Inv.setState (h : Inv w) {value : StreamWriteState} {f : BufferGateFrame}
    (hf : f.returns = true) (hpinned : ∀ i, f = .pinned i → ∃ a ∈ w.gate.writeInBuffer, a.id = i)
    (hkeep : w.IsStopped id → value = .stopped)
    (hagrees : value = .stopped → ∀ a ∈ w.gate.writeInBuffer, a.id = id → a.isSent →
      w.outState id = .stopped)
    (hfree : value = .stopped → ¬w.IsStopped id → ∀ f ∈ w.gate.frames, f.action ≠ some id) :
    Inv (w.setState id value f) := by
  unfold StoppableBufferGate.setState
  split
  · next hne =>
    have hset : Inv { w with state := Function.update w.state id ((w.state id).set value) } := by
      apply h.update_state
      · rwa [StateMachine.state_set]
      · rwa [StateMachine.state_set]
      · intro _ hst
        rw [StateMachine.state_set] at hst
        rw [hst] at hne
        exact hfree hst hne
    exact hset.call hf hpinned
  · exact h

theorem Inv.cons_stopped (h : Inv w) (ha : a ∈ w.gate.writeInBuffer) (hs : ¬a.isSent)
    (hst : w.IsStopped a.id) : Inv { w with stopped := a.id :: w.stopped } := by
  refine { h with honest := { h.honest with never := ?_ }, below := ?_, marked := ?_ }
  · intro i hi hin
    obtain rfl | hi := List.mem_cons.mp hi
    · exact hs ((h.handed a ha).mpr hin)
    · exact h.honest.never i hi hin
  · rintro i (hi | hi | hi)
    · exact h.below i (.inl hi)
    · obtain rfl | hi := List.mem_cons.mp hi
      · exact h.sound.below a ha
      · exact h.below i (.inr (.inl hi))
    · exact h.below i (.inr (.inr hi))
  · intro b hb hi
    obtain hid | hi := List.mem_cons.mp hi
    · rw [hid]
      exact hst
    · exact h.marked b hb hi

variable {frame : BufferGateFrame}

theorem setState_gate_list (value : StreamWriteState) :
    (w.setState id value frame).gate.writeInBuffer = w.gate.writeInBuffer := by
  unfold setState
  split <;> rfl

theorem isStopped_setState : (w.setState id .stopped frame).IsStopped id := by
  unfold setState
  split
  · show (Function.update w.state id _ id).state = _
    rw [Function.update_self, StateMachine.state_set]
  · next h => exact not_not.mp h

theorem Inv.stop (h : Inv w) (hsending : .sending id ∉ w.gate.frames) : Inv (w.stop id) := by
  unfold StoppableBufferGate.stop
  split
  · exact h
  · next a hfind =>
    obtain ⟨ha, rfl⟩ := find_eq_some hfind
    have hpinned : ∀ i, .pinned a.id = BufferGateFrame.pinned i →
        ∃ b ∈ w.gate.writeInBuffer, b.id = i := by
      intro i hi
      exact ⟨a, ha, BufferGateFrame.pinned.inj hi⟩
    split
    · exact h.call rfl hpinned
    · next hno =>
      have hs : ¬a.isSent := fun hs => hno ⟨hs, hsending⟩
      have hset : Inv (w.setState a.id .stopped (.pinned a.id)) := by
        apply h.setState rfl hpinned
        · exact fun _ => rfl
        · intro _ b hb hid hbs
          exact absurd (h.sound.eq_of_id hb ha hid ▸ hbs) hs
        · exact fun _ hst f hf hact => hst (h.stopped_of_busy ha hs hf hact)
      have hlog : (w.setState a.id .stopped (.pinned a.id)).stopped = w.stopped := by
        unfold StoppableBufferGate.setState
        split <;> rfl
      rw [if_neg hs, ← hlog]
      refine hset.cons_stopped ?_ hs isStopped_setState
      rw [setState_gate_list]
      exact ha

section Report
variable (h : Inv w) (ha : a ∈ w.gate.writeInBuffer)
  (hfree : a.id ∉ w.gate.frames.filterMap BufferGateFrame.action)
include h ha hfree

theorem Inv.not_reported : ¬w.Reported a.id :=
  fun hr => hfree (mem_busy ((h.reporting a ha).mp hr) rfl)

theorem Inv.outcome_eq_none : w.outcome a.id = none := by
  cases hout : w.outcome a.id with
  | none => rfl
  | some o =>
    exact absurd (List.mem_map_of_mem (h.honest.outcomes _ o hout)) (h.not_reported ha hfree)

section Outcome
variable {outcome : ℕ → Option WriteOutcome} {o : WriteOutcome}
  (hother : ∀ i, i ≠ a.id → outcome i = w.outcome i)
  (hout : outcome a.id = some o ∨
    outcome a.id = none ∧ (a.isSent → w.outState a.id = .stopped) ∧ o = .stopped)
include hother hout

theorem Inv.honest_report : Honest { w with
    gate := w.gate.call (.finishing a.id), outcome := outcome
    reports := (a.id, o) :: w.reports } := by
  have hnot := h.not_reported ha hfree
  refine { h.honest with once := ?_, told := ?_, outcomes := ?_ }
  · exact List.nodup_cons.mpr ⟨hnot, h.honest.once⟩
  · intro p hp hin
    obtain rfl | hp := List.mem_cons.mp hp
    · exact hout.imp_right fun ⟨hnone, hst, ho⟩ => ⟨hnone, hst ((h.handed a ha).mpr hin), ho⟩
    · have hne : p.1 ≠ a.id := fun hid => hnot (hid ▸ List.mem_map_of_mem hp)
      show outcome p.1 = _ ∨ outcome p.1 = _ ∧ _
      rw [hother _ hne]
      exact h.honest.told p hp hin
  · intro i r hr
    by_cases hid : i = a.id
    · subst hid
      obtain hsome | ⟨hnone, -⟩ := hout
      · obtain rfl : o = r := Option.some.inj (hsome.symm.trans hr)
        exact List.mem_cons_self
      · cases hnone.symm.trans hr
    · exact List.mem_cons_of_mem _ (h.honest.outcomes i r (hother i hid ▸ hr))

variable (hl : w.gate.linkedOut = true) (hunpinned : .pinned a.id ∉ w.gate.frames)
  (hleave : ¬a.isSent → w.IsStopped a.id)
include hl hunpinned hleave

theorem Inv.report (hch : (w.state a.id).changed = false) :
    Inv { w with
      gate := w.gate.call (.finishing a.id), outcome := outcome
      reports := (a.id, o) :: w.reports } := by
  have hframe {f : BufferGateFrame} (hf : f ∈ (w.gate.call (.finishing a.id)).frames) :
      f = .finishing a.id ∨ f ∈ w.gate.frames := List.mem_cons.mp hf
  have hreported {i : ℕ} : i ∈ ((a.id, o) :: w.reports).map Prod.fst ↔ i = a.id ∨ w.Reported i :=
    List.mem_cons
  refine { h with
    sound := ?_, honest := h.honest_report ha hfree hother hout, below := ?_, leaving := ?_
    reporting := ?_, settled := ?_, unsubscribed := ?_, watched := ?_, gone := ?_ }
  · refine h.sound.call (.inr hl) ?_ nofun ?_
    · intro i hi
      cases hi
      exact ⟨hfree, a, ha, rfl, nofun⟩
    · intro i hi
      cases hi
      exact hunpinned
  · rintro i (hi | hi | hi)
    · exact h.below i (.inl hi)
    · exact h.below i (.inr (.inl hi))
    · obtain rfl | hi := hreported.mp hi
      · exact h.sound.below a ha
      · exact h.below i (.inr (.inr hi))
  · intro b hb hs hf
    obtain hf | hf := hframe hf
    · obtain rfl := h.sound.eq_of_id hb ha (BufferGateFrame.finishing.inj hf)
      exact hleave hs
    · exact h.leaving b hb hs hf
  · intro b hb
    rw [Reported, hreported, h.reporting b hb]
    exact (or_congr_left ⟨congrArg _, BufferGateFrame.finishing.inj⟩).trans List.mem_cons.symm
  · intro f hf i hact
    obtain rfl | hf := hframe hf
    · cases hact
      intro hyes
      rw [hch] at hyes
      cases hyes
    · exact h.settled f hf i hact
  · exact fun b hb hf => h.unsubscribed b hb ((hframe hf).resolve_left nofun)
  · intro b hb hs hnone
    refine (h.watched b hb hs ?_).imp_right (List.mem_cons_of_mem _)
    by_cases hid : b.id = a.id
    · rw [hid]
      exact h.outcome_eq_none ha hfree
    · exact hother _ hid ▸ hnone
  · exact fun i hi hno => hreported.mpr (.inr (h.gone i hi hno))

theorem Inv.acquire_report :
    Inv { w with
      gate := w.gate.call (.finishing a.id), outcome := outcome
      state := Function.update w.state a.id (w.state a.id).acquire
      reports := (a.id, o) :: w.reports } := by
  refine h.acquire.report ha hfree hother hout hl hunpinned ?_ ?_
  · intro hs
    show (Function.update w.state a.id _ a.id).state = _
    rw [Function.update_self]
    exact hleave hs
  · show (Function.update w.state a.id _ a.id).changed = _
    rw [Function.update_self]
    rfl

end Outcome
end Report

theorem Inv.updateAction (h : Inv w)
    (hl : w.IsStopped id → w.gate.linkedOut = true ∧ .pinned id ∉ w.gate.frames) :
    Inv (w.updateAction id) := by
  unfold StoppableBufferGate.updateAction
  split
  · next hch =>
    split
    · next hst =>
      obtain ⟨a, hfind⟩ := Option.isSome_iff_exists.mp hch.1
      obtain ⟨ha, rfl⟩ := find_eq_some hfind
      have hfree : a.id ∉ w.gate.frames.filterMap BufferGateFrame.action := by
        intro hbusy
        obtain ⟨f, hf, hact⟩ := List.mem_filterMap.mp hbusy
        exact h.settled f hf _ hact hch.2 hst
      refine h.acquire_report ha hfree (fun _ _ => rfl) (.inr ⟨?_, ?_, rfl⟩) (hl hst).1 (hl hst).2
        fun _ => hst
      · exact h.outcome_eq_none ha hfree
      · exact fun hs => h.agrees a ha hs hst
    · exact h.acquire
  · exact h

theorem Inv.update_outState (h : Inv w) (hne : w.outState id ≠ .stopped) (value : StreamWriteState) :
    Inv { w with outState := Function.update w.outState id value } := by
  have hstill : ∀ i, w.outState i = .stopped →
      Function.update w.outState id value i = .stopped := by
    intro i hi
    rw [Function.update_of_ne, hi]
    rintro rfl
    exact hne hi
  refine { h with honest := { h.honest with told := ?_ }, agrees := ?_ }
  · intro p hp hin
    exact (h.honest.told p hp hin).imp_right fun ⟨hnone, hst, ho⟩ => ⟨hnone, hstill _ hst, ho⟩
  · exact fun a ha hs hst => hstill _ (h.agrees a ha hs hst)

theorem subscribed_of_find (h : (w.gate.find id).any BufferedWriteAction.subscribed = true) :
    ∃ a ∈ w.gate.writeInBuffer, a.id = id ∧ a.subscribed = true := by
  cases hfind : w.gate.find id with
  | none =>
    rw [hfind] at h
    cases h
  | some a =>
    rw [hfind] at h
    obtain ⟨ha, hid⟩ := find_eq_some hfind
    exact ⟨a, ha, hid, h⟩

theorem Inv.setOutState (h : Inv w) {value : StreamWriteState}
    (hlast : w.outState id = .stopped → value = .stopped) : Inv (w.setOutState id value) := by
  unfold StoppableBufferGate.setOutState
  split
  · next hcan =>
    obtain ⟨hin, hnone, hchange⟩ := hcan
    have hne : w.outState id ≠ .stopped := fun hst => hchange (hst.trans (hlast hst).symm)
    have hout := h.update_outState hne value
    split
    · next hany =>
      obtain ⟨a, ha, rfl, hsub⟩ := subscribed_of_find hany
      have hs := h.sound.subscribed a ha hsub
      apply hout.setState (f := .callback) rfl nofun
      · exact fun hst => absurd (h.agrees a ha hs hst) hne
      · intro hst _ _ _ _
        exact (Function.update_self ..).trans hst
      · -- no call is under way for it
        intro _ _ f hf hact
        cases f with
        | callback | pinned | updated | removed => cases hact
        | finishing i =>
          cases hact
          obtain ⟨p, hp, hid⟩ := List.mem_map.mp ((h.reporting a ha).mpr hf)
          obtain hsome | ⟨-, hst, -⟩ := h.honest.told p hp (hid ▸ hin)
          · rw [hid, hnone] at hsome
            cases hsome
          · exact hne (hid ▸ hst)
        | sending i =>
          cases hact
          exact h.unsubscribed a ha hf hsub
    · exact hout
  · exact h

theorem Inv.outcome_known (h : Inv w) {o : WriteOutcome} (hno : w.Reported id)
    (hsame : ∀ p ∈ w.reports, p.1 = id → p.2 = o) :
    Inv { w with outcome := Function.update w.outcome id (some o) } := by
  refine { h with honest := { h.honest with told := ?_, outcomes := ?_ }, watched := ?_ }
  · intro p hp hin
    by_cases hid : p.1 = id
    · left
      show Function.update _ _ _ _ = _
      rw [hid, Function.update_self, hsame p hp hid]
    · show Function.update _ _ _ _ = _ ∨ Function.update _ _ _ _ = _ ∧ _
      rw [Function.update_of_ne hid]
      exact h.honest.told p hp hin
  · intro i r hr
    by_cases hid : i = id
    · subst hid
      obtain ⟨p, hp, hid⟩ := List.mem_map.mp hno
      have hr : Function.update w.outcome i (some o) i = some r := hr
      rw [Function.update_self] at hr
      have hpair : p = (i, r) := by
        rw [← Option.some.inj hr, ← hsame p hp hid, ← hid]
      exact hpair ▸ hp
    · have hr : Function.update w.outcome id (some o) i = some r := hr
      rw [Function.update_of_ne hid] at hr
      exact h.honest.outcomes i r hr
  · intro a ha hs hnone
    apply h.watched a ha hs
    have hnone : Function.update w.outcome id (some o) a.id = none := hnone
    by_cases hid : a.id = id
    · rw [hid, Function.update_self] at hnone
      cases hnone
    · rwa [Function.update_of_ne hid] at hnone

theorem Inv.finishOut (h : Inv w) {o : WriteOutcome}
    (hfree : id ∉ w.gate.frames.filterMap BufferGateFrame.action)
    (hunpinned : .pinned id ∉ w.gate.frames) (hlast : w.outState id = .stopped → o = .stopped) :
    ∃ w', w.finishOut id o = some w' ∧ Inv w' := by
  unfold StoppableBufferGate.finishOut
  split
  · next hcan =>
    obtain ⟨hin, hnone⟩ := hcan
    split
    · next hany =>
      obtain ⟨a, ha, rfl, hsub⟩ := subscribed_of_find hany
      have hs := h.sound.subscribed a ha hsub
      rw [step_finish_of_subscribed ha hsub]
      refine ⟨_, rfl, ?_⟩
      have hout : Function.update w.outcome a.id (some o) a.id = some o := Function.update_self ..
      have hreport := h.acquire_report ha hfree (fun i hi => Function.update_of_ne hi ..) (.inl hout)
        (h.sound.linked_of_sent ha hs) hunpinned fun hno => absurd hs hno
      apply hreport.follows (h.sound.finished ha hsub hfree hunpinned) (follows_finished hfree)
      rintro i rfl hnone
      cases hout.symm.trans hnone
    · next hsub =>
      refine ⟨_, rfl, ?_⟩
      -- the write has left the list
      have hgone : ∀ a ∈ w.gate.writeInBuffer, a.id ≠ id := by
        rintro a ha rfl
        obtain hyes | hf := h.watched a ha ((h.handed a ha).mpr hin) hnone
        · rw [h.sound.find_eq ha] at hsub
          exact hsub hyes
        · exact hfree (mem_busy hf rfl)
      apply h.outcome_known (h.gone id hin hgone)
      rintro p hp rfl
      obtain hsome | ⟨-, hst, ho⟩ := h.honest.told p hp hin
      · cases hnone.symm.trans hsome
      · rw [ho, hlast hst]
  · exact ⟨w, rfl, h⟩

theorem Inv.step (h : Inv w) {e : BufferStopEvent Data} (ht : w.Timely e) :
    ∃ w', w.step e = some w' ∧ Inv w' := by
  cases e with
  | write data => exact h.step_gate (e := .write data) nofun trivial
  | linkOut => exact h.step_gate (e := .linkOut) nofun trivial
  | update info => exact h.step_gate (e := .update info) nofun ht
  | ret => exact h.step_gate (e := .ret) nofun ht
  | stop => exact ⟨_, rfl, h.stop ht⟩
  | updateAction => exact ⟨_, rfl, h.updateAction ht⟩
  | outState => exact ⟨_, rfl, h.setOutState ht⟩
  | outFinish => exact h.finishOut ht.1 ht.2.1 ht.2.2

theorem inv_initial (bufferMax : ℕ) :
    Inv ({ gate := { bufferMax := bufferMax } } : StoppableBufferGate Data) := by
  constructor
  case sound => exact sound_initial bufferMax
  case honest => exact ⟨nofun, List.nodup_nil, nofun, nofun⟩
  all_goals nofun

theorem honest_of_timely (bufferMax : ℕ) (es : List (BufferStopEvent Data))
    (h : Along step Timely { gate := { bufferMax := bufferMax } } es) :
    ∃ w', run step { gate := { bufferMax := bufferMax } } es = some w' ∧ Honest w' := by
  obtain ⟨w', hrun, hw'⟩ := run_invariant (fun _ _ hw ht => Inv.step hw ht) (inv_initial bufferMax) h
  exact ⟨w', hrun, hw'.honest⟩

/-- One write is stopped before the out gate accepts writes, one behind the write that was sent. -/
theorem honest_of_timely_three_writes :
    ∃ w', run step ({ gate := { bufferMax := 2 } } : StoppableBufferGate ℕ) [.linkOut, .ret,
      .write 5, .write 6, .ret, .stop 0, .ret, .updateAction 0, .ret, .ret,
      .update { isLinked := true, isWriteble := true }, .ret, .ret, .write 7, .ret, .stop 2, .ret,
      .updateAction 2, .ret, .ret, .outState 1 .done, .ret, .outFinish 1 .result, .ret] = some w' ∧
        Honest w' :=
  honest_of_timely 2 _ (by decide +kernel)

/-- The out gate accepts writes again before the stopped write is updated. -/
theorem stopped_write_sent : ¬∀ (bufferMax : ℕ) (es : List (BufferStopEvent ℕ))
    (w' : StoppableBufferGate ℕ), run step { gate := { bufferMax := bufferMax } } es = some w' →
      Honest w' := by
  intro hall
  let es : List (BufferStopEvent ℕ) := [.linkOut, .ret, .write 5, .stop 0, .ret,
    .update { isLinked := true, isWriteble := true }, .ret]
  have hsome : (run step { gate := { bufferMax := 100 } } es).isSome = true := by decide +kernel
  obtain ⟨w', hrun⟩ := Option.isSome_iff_exists.mp hsome
  have hlists := run_observe (f := fun w => (w.stopped, w.handed)) (b := ([0], [0])) hrun
    (by decide +kernel)
  have hstopped : w'.stopped = [0] := congrArg Prod.fst hlists
  have hhanded : w'.handed = [0] := congrArg Prod.snd hlists
  exact (hall 100 es w' hrun).never 0 (by rw [hstopped]; decide) (by rw [hhanded]; decide)

end StoppableBufferGate
end AetherClient
