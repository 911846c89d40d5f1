import AetherClient.BufferGateSteps
import AetherClient.Runs

set_option autoImplicit false

namespace AetherClient

inductive BufferLinkEvent (Data : Type) where
  | write (data : Data)
  | linkOut (info : StreamInfo)
  | update (info : StreamInfo)
  | finish (id : ℕ)
  | finishDirect
  | ret

structure LinkedBufferGate (Data : Type) where
  gate : BufferGate Data
  outInfo : StreamInfo := {}
  direct : ℕ := 0

def StreamInfo.Accepts (info : StreamInfo) : Prop := info.isLinked = true ∧ info.isWriteble = true

instance (info : StreamInfo) : Decidable info.Accepts := inferInstanceAs (Decidable (_ ∧ _))

namespace LinkedBufferGate
open Runs
variable {Data : Type}

def step (w : LinkedBufferGate Data) : BufferLinkEvent Data → Option (LinkedBufferGate Data)
  | .write data =>
    -- the write is passed on at once
    let passes := w.gate.lastOutStreamInfo.Accepts ∧ w.gate.writeInBuffer.isEmpty
    (w.gate.step (.write data)).map fun gate =>
      { w with gate := gate, direct := if passes then w.direct + 1 else w.direct }
  | .linkOut info =>
    (w.gate.step .linkOut).map fun gate => { w with gate := gate, outInfo := info }
  | .update info =>
    if w.gate.linkedOut then
      (w.gate.step (.update info)).map fun gate => { w with gate := gate, outInfo := info }
    else some w
  | .finish id => (w.gate.step (.finish id)).map fun gate => { w with gate := gate }
  | .finishDirect => some { w with direct := w.direct - 1 }
  | .ret => (w.gate.step .ret).map fun gate => { w with gate := gate }

/-- When no call is under way and the out gate accepts writes, a write waits only behind one that
was handed over and has not finished. Nothing is passed on at once while a write waits, so what was
passed on was accepted before it. -/
def NoneStranded (w : LinkedBufferGate Data) : Prop :=
  w.gate.frames = [] → w.outInfo.Accepts → ∀ l a r, w.gate.writeInBuffer = l ++ a :: r →
    ¬a.isSent → (∃ b ∈ l, b.isSent) ∨ 0 < w.direct

/-- The gate is linked to one that accepts writes only when its copy says so already, and no write
finishes while its own `Write` is under way. -/
def Foreseen (w : LinkedBufferGate Data) : BufferLinkEvent Data → Prop
  | .linkOut info => info.Accepts → w.gate.lastOutStreamInfo.Accepts
  | .finish id => .pinned id ∉ w.gate.frames
  | _ => True

instance (w : LinkedBufferGate Data) : (e : BufferLinkEvent Data) → Decidable (Foreseen w e)
  | .linkOut _ => inferInstanceAs (Decidable (_ → _))
  | .finish id => inferInstanceAs (Decidable (.pinned id ∉ w.gate.frames))
  | .write _ | .update _ | .finishDirect | .ret => inferInstanceAs (Decidable True)

end LinkedBufferGate

namespace BufferGate
variable {Data : Type} {w w' : BufferGate Data}

def Served (w : BufferGate Data) : Prop :=
  (∀ a ∈ w.writeInBuffer.head?, a.isSent) ∨ ∃ f ∈ w.frames, f.returns = false

theorem Served.of_frames (h : Served w) (hhead : ∀ a ∈ w'.writeInBuffer.head?, a ∈ w.writeInBuffer.head?)
    (hframes : ∀ f ∈ w.frames, f.returns = false → f ∈ w'.frames) : Served w' := by
  obtain hsent | ⟨f, hf, hne⟩ := h
  · exact .inl fun a ha => hsent a (hhead a ha)
  · exact .inr ⟨f, hframes f hf hne, hne⟩

theorem Served.of_return (h : Served w) {f : BufferGateFrame} {rest : List BufferGateFrame}
    (hf : w.frames = f :: rest) (hreturns : f.returns = true) : Served { w with frames := rest } := by
  refine h.of_frames (fun _ ha => ha) ?_
  intro g hg hno
  rw [hf] at hg
  obtain rfl | hg := List.mem_cons.mp hg
  · rw [hreturns] at hno
    cases hno
  · exact hg

theorem served_send (a : BufferedWriteAction Data) : Served (w.send a) :=
  .inr ⟨.sending a.id, List.mem_cons_self, rfl⟩

theorem served_drainFrom {pre l : List (BufferedWriteAction Data)}
    (hb : w.writeInBuffer = pre ++ l) (hpre : ∀ b ∈ pre, b.isSent)
    (hwr : w.lastOutStreamInfo.isWriteble = true) : Served (w.drainFrom l) := by
  obtain ⟨hsame, hall⟩ | ⟨-, a, -, -, -, -, -, hsend⟩ := w.drainFrom_cases l
  · rw [hsame]
    left
    intro a ha
    have hmem := List.mem_of_mem_head? ha
    rw [hb] at hmem
    obtain hmem | hmem := List.mem_append.mp hmem
    · exact hpre a hmem
    · exact hall hwr a hmem
  · rw [hsend]
    exact served_send a

theorem lastOut_drainFrom (l : List (BufferedWriteAction Data)) :
    (w.drainFrom l).lastOutStreamInfo = w.lastOutStreamInfo := congrArg Prod.fst (record_drainFrom l)

theorem served_drainBuffer (h : w.drainBuffer = some w') (hok : w'.lastOutStreamInfo.Accepts) :
    Served w' := by
  unfold drainBuffer at h
  split at h
  · cases h
    rw [lastOut_drainFrom] at hok
    exact served_drainFrom (List.nil_append _).symm (fun _ h => absurd h List.not_mem_nil) hok.2
  · cases h

theorem served_drainLinked (h : w.drainLinked = some w')
    (hsame : w.streamInfo.isLinked = w.lastOutStreamInfo.isLinked)
    (hok : w'.lastOutStreamInfo.Accepts) : Served w' := by
  unfold drainLinked at h
  split at h
  · exact served_drainBuffer h hok
  · next hnot =>
    cases h
    exact absurd (hsame.trans hok.1) hnot

theorem served_removeAction {id : ℕ} (h : w.removeAction id = some w')
    (hok : w'.lastOutStreamInfo.Accepts) : Served w' := by
  unfold removeAction setSoftWriteable at h
  split at h
  · split at h
    · cases h
      exact .inr ⟨.removed, List.mem_cons_self, rfl⟩
    · exact served_drainBuffer h hok
  · cases h

theorem Served.write {data : Data} (hs : w.lastOutStreamInfo.Accepts → Served w)
    (h : w.write data = some w') (hok : w'.lastOutStreamInfo.Accepts) : Served w' := by
  simp only [BufferGate.write, setSoftWriteable] at h
  split at h
  · next hbuf =>
    -- behind a list that is not empty
    have hhead : w.lastOutStreamInfo.Accepts → ∀ (b : BufferedWriteAction Data),
        (w.writeInBuffer ++ [b]).head? = w.writeInBuffer.head? := by
      intro hok b
      simp only [hok.1, hok.2, Bool.not_true, Bool.or_self, Bool.false_or, Bool.not_eq_true',
        List.isEmpty_eq_false_iff] at hbuf
      exact List.head?_append_of_ne_nil _ hbuf
    split at h
    · cases h
      exact (hs hok).of_frames (fun _ ha => ha) fun _ hf _ => hf
    · split at h
      · split at h
        · cases h
          exact (hs hok).of_frames (fun _ ha => hhead hok _ ▸ ha)
            fun _ hf _ => List.mem_cons_of_mem _ hf
        · cases h
          exact (hs hok).of_frames (fun _ ha => hhead hok _ ▸ ha) fun _ hf _ => hf
      · cases h
        exact (hs hok).of_frames (fun _ ha => hhead hok _ ▸ ha) fun _ hf _ => hf
  · split at h
    · cases h
      exact (hs hok).of_frames (fun _ ha => ha) fun _ hf _ => List.mem_cons_of_mem _ hf
    · cases h

theorem Served.step {e : BufferGateEvent Data} (hw : Sound w)
    (hsame : w.streamInfo.isLinked = w.lastOutStreamInfo.isLinked)
    (hs : w.lastOutStreamInfo.Accepts → Served w) (h : w.step e = some w')
    (hok : w'.lastOutStreamInfo.Accepts) : Served w' := by
  cases e with
  | write data => exact Served.write hs h hok
  | linkOut =>
    cases h
    exact (hs hok).of_frames (fun _ ha => ha) fun f hf _ => List.mem_cons_of_mem _ hf
  | update info =>
    simp only [BufferGate.step, updateGate] at h
    split at h
    · split at h
      · cases h
        exact .inr ⟨.updated, List.mem_cons_self, rfl⟩
      · exact served_drainLinked h hsame hok
    · cases h
      exact hs hok
  | finish id =>
    simp only [BufferGate.step] at h
    split at h
    · cases h
      exact .inr ⟨.finishing id, List.mem_cons_self, rfl⟩
    · cases h
      exact hs hok
  | ret =>
    cases hf : w.frames with
    | nil =>
      simp only [BufferGate.step, hf] at h
      cases h
      exact hs hok
    | cons f rest =>
      simp only [BufferGate.step, hf] at h
      cases f with
      | callback =>
        cases h
        exact (hs hok).of_return hf rfl
      | pinned id =>
        simp only [BufferGate.resume] at h
        split at h
        · cases h
          exact (hs hok).of_return hf rfl
        · cases h
      | updated => exact served_drainLinked (w := { w with frames := rest }) h hsame hok
      | removed => exact served_drainBuffer (w := { w with frames := rest }) h hok
      | finishing id => exact served_removeAction (w := { w with frames := rest }) h hok
      | sending id =>
        obtain ⟨pre, l, hb, hpre, hresume⟩ := hw.resume_sending hf
        rw [hresume] at h
        cases h
        rw [lastOut_drainFrom] at hok
        exact served_drainFrom hb hpre hok.2

theorem Quiet.linked_eq (h : Quiet w w')
    (hsame : w.streamInfo.isLinked = w.lastOutStreamInfo.isLinked) :
    w'.streamInfo.isLinked = w'.lastOutStreamInfo.isLinked := by
  cases h with
  | inform => rfl
  | call | ret | refuse | enqueue | passOn | link | subscribe | remove => exact hsame

end BufferGate

namespace LinkedBufferGate
open BufferGate Runs
variable {Data : Type} {w : LinkedBufferGate Data}

structure Inv (w : LinkedBufferGate Data) : Prop where
  sound : Sound w.gate
  worksOnSent : WorksOnSent w.gate
  linked : w.gate.streamInfo.isLinked = w.gate.lastOutStreamInfo.isLinked
  served : w.gate.lastOutStreamInfo.Accepts → Served w.gate
  known : w.outInfo.Accepts → w.gate.lastOutStreamInfo.Accepts

theorem Inv.noneStranded (h : Inv w) : NoneStranded w := by
  intro hframes hok l a r hb ha
  left
  obtain hhead | ⟨f, hf, -⟩ := h.served (h.known hok)
  · cases l with
    | nil =>
      rw [hb] at hhead
      exact absurd (hhead a rfl) ha
    | cons b l =>
      rw [hb] at hhead
      exact ⟨b, List.mem_cons_self, hhead b rfl⟩
  · rw [hframes] at hf
    cases hf

theorem Inv.gate_step (h : Inv w) {e : BufferGateEvent Data} (he : w.gate.Settled e) :
    ∃ gate, w.gate.step e = some gate ∧ ∀ info direct, (info.Accepts → gate.lastOutStreamInfo.Accepts) → Inv ⟨gate, info, direct⟩ := by
  obtain ⟨gate, hstep, hsound, hworks, hlinked⟩ := h.sound.step_preserves
    (I := fun v => WorksOnSent v ∧ v.streamInfo.isLinked = v.lastOutStreamInfo.isLinked)
    (fun _ _ hv hi hq => ⟨hi.1.quiet hv hq, hq.linked_eq hi.2⟩)
    (fun _ _ hv hi ha => ⟨hi.1.send hv ha, hi.2⟩)
    (fun _ _ hv hi ha hs => ⟨hi.1.finished hv ha hs, hi.2⟩)
    ⟨h.worksOnSent, h.linked⟩ (h.worksOnSent.ready h.sound he)
  refine ⟨gate, hstep, fun info direct hknown => ⟨hsound, hworks, hlinked, ?_, hknown⟩⟩
  exact Served.step h.sound h.linked h.served hstep

theorem Inv.step {e : BufferLinkEvent Data} (h : Inv w) (hf : Foreseen w e) :
    ∃ w', w.step e = some w' ∧ Inv w' := by
  cases e with
  | write data =>
    obtain ⟨gate, hstep, hinv⟩ := h.gate_step (e := .write data) trivial
    refine ⟨_, by rw [LinkedBufferGate.step, hstep]; rfl, hinv _ _ ?_⟩
    rw [lastOut_step hstep fun info he => by cases he]
    exact h.known
  | linkOut info =>
    obtain ⟨gate, hstep, hinv⟩ := h.gate_step (e := .linkOut) trivial
    refine ⟨_, by rw [LinkedBufferGate.step, hstep]; rfl, hinv _ _ ?_⟩
    rw [lastOut_step hstep fun info he => by cases he]
    exact hf
  | update info =>
    rw [LinkedBufferGate.step]
    split
    · next hl =>
      obtain ⟨gate, hstep, hinv⟩ := h.gate_step (e := .update info) trivial
      refine ⟨_, by rw [hstep]; rfl, hinv _ _ ?_⟩
      rw [BufferGate.step, if_pos hl] at hstep
      rw [show gate.lastOutStreamInfo = info from congrArg Prod.fst (record_updateGate hstep)]
      exact id
    · exact ⟨w, rfl, h⟩
  | finish id =>
    obtain ⟨gate, hstep, hinv⟩ := h.gate_step (e := .finish id) hf
    refine ⟨_, by rw [LinkedBufferGate.step, hstep]; rfl, hinv _ _ ?_⟩
    rw [lastOut_step hstep fun info he => by cases he]
    exact h.known
  | finishDirect => exact ⟨_, rfl, { h with }⟩
  | ret =>
    obtain ⟨gate, hstep, hinv⟩ := h.gate_step (e := .ret) trivial
    refine ⟨_, by rw [LinkedBufferGate.step, hstep]; rfl, hinv _ _ ?_⟩
    rw [lastOut_step hstep fun info he => by cases he]
    exact h.known

theorem inv_initial (bufferMax : ℕ) :
    Inv ({ gate := { bufferMax := bufferMax } } : LinkedBufferGate Data) where
  sound := sound_initial bufferMax
  worksOnSent := List.forall_mem_nil _
  linked := rfl
  served := fun _ => .inl nofun
  known := fun h => by cases h.1

theorem none_stranded {bufferMax : ℕ} {events : List (BufferLinkEvent Data)}
    (h : Along step Foreseen { gate := { bufferMax := bufferMax } } events) :
    ∃ w, run step { gate := { bufferMax := bufferMax } } events = some w ∧ NoneStranded w := by
  obtain ⟨w, hrun, hinv⟩ := run_invariant (fun _ _ h hf => h.step hf) (inv_initial bufferMax) h
  exact ⟨w, hrun, hinv.noneStranded⟩

/-- A write is kept until the out gate accepts it, the next one is passed on, and the gate is then
linked to another one that accepts writes. -/
theorem none_stranded_relinked : Along step Foreseen ({ gate := { bufferMax := 100 } } :
      LinkedBufferGate ℕ) [.linkOut {}, .ret, .write 5,
      .update { isLinked := true, isWriteble := true }, .ret, .ret, .finish 0, .ret, .write 6, .ret,
      .linkOut { isLinked := true, isWriteble := true }, .ret, .write 7, .ret] ∧
    ∃ w, run step ({ gate := { bufferMax := 100 } } : LinkedBufferGate ℕ) [.linkOut {}, .ret,
      .write 5, .update { isLinked := true, isWriteble := true }, .ret, .ret, .finish 0, .ret,
      .write 6, .ret, .linkOut { isLinked := true, isWriteble := true }, .ret, .write 7, .ret] =
        some w ∧ NoneStranded w := by
  have hforeseen : Along step Foreseen ({ gate := { bufferMax := 100 } } : LinkedBufferGate ℕ)
      [.linkOut {}, .ret, .write 5, .update { isLinked := true, isWriteble := true }, .ret, .ret,
      .finish 0, .ret, .write 6, .ret, .linkOut { isLinked := true, isWriteble := true }, .ret,
      .write 7, .ret] := by decide +kernel
  exact ⟨hforeseen, none_stranded hforeseen⟩

/-- The first write behind a gate that accepts writes when it is linked is not handed over. -/
theorem stranded_behind_open_gate : ¬∀ (bufferMax : ℕ) (events : List (BufferLinkEvent ℕ)),
    ∃ w, run step { gate := { bufferMax := bufferMax } } events = some w ∧ NoneStranded w := by
  intro hall
  obtain ⟨w, hrun, hnone⟩ := hall 100
    [.linkOut { isLinked := true, isWriteble := true }, .ret, .write 5]
  have hframes := run_observe (f := fun w => w.gate.frames) (b := []) hrun (by decide +kernel)
  have hout := run_observe (f := fun w => w.outInfo)
    (b := { isLinked := true, isWriteble := true }) hrun (by decide +kernel)
  have hdirect := run_observe (f := fun w => w.direct) (b := 0) hrun (by decide +kernel)
  have hbuffer := run_observe
    (f := fun w => w.gate.writeInBuffer.map fun a => (a.data, a.isSent)) (b := [(5, false)]) hrun
    (by decide +kernel)
  obtain ⟨a, hlist, ha⟩ := List.map_eq_singleton_iff.mp hbuffer
  have hsent : ¬a.isSent := by
    rw [(Prod.mk.inj ha).2]
    exact Bool.false_ne_true
  obtain ⟨b, hb, -⟩ | hpos := hnone hframes (by rw [hout]; decide) [] a [] hlist hsent
  · cases hb
  · omega

end LinkedBufferGate
end AetherClient
