import AetherClient.BufferGateSteps
import AetherClient.Runs

set_option autoImplicit false

namespace AetherClient
namespace BufferGate
variable {Data : Type}

structure Inv (limit : ℕ) (w : BufferGate Data) : Prop where
  max : w.bufferMax = limit
  worksOnSent : WorksOnSent w
  order : w.handed ++ w.waiting = w.accepted
  soft : w.streamInfo.isSoftWritable = decide (w.writeInBuffer.length < limit)
  bounded : w.writeInBuffer.length ≤ limit
  refused : ∀ data n, .refused data n ∈ w.answers → n = limit

section Inv
variable {limit : ℕ} {w w' : BufferGate Data} {a : BufferedWriteAction Data} {id : ℕ}

theorem waiting_remove (hw : Sound w) (ha : a ∈ w.writeInBuffer) (hs : a.isSent) :
    ((w.writeInBuffer.filter fun b => b.id ≠ a.id).filter fun b => !b.isSent) =
      w.writeInBuffer.filter fun b => !b.isSent := by
  rw [List.filter_filter]
  apply List.filter_congr
  intro b hb
  by_cases hid : b.id = a.id
  · rw [hw.eq_of_id hb ha hid]
    simp [hs]
  · simp [hid]

theorem Inv.quiet (hw : Inv limit w) (hs : Sound w) (h : Quiet w w') : Inv limit w' := by
  have hworks := hw.worksOnSent.quiet hs h
  have hle := hw.bounded
  cases h with
  | call | ret | link | inform => exact { hw with worksOnSent := hworks }
  | refuse data hsoft =>
    refine { hw with worksOnSent := hworks, order := ?_, refused := ?_ }
    · show w.handed ++ w.waiting = (w.answers ++ [_]).filterMap _
      rw [List.filterMap_append, hw.order]
      exact (List.append_nil _).symm
    · have hfull : ¬w.writeInBuffer.length < limit := by
        rw [hw.soft] at hsoft
        exact of_decide_eq_false hsoft
      intro d n hn
      obtain hn | hn := List.mem_append.mp hn
      · exact hw.refused d n hn
      · cases List.mem_singleton.mp hn
        omega
  | enqueue data hsoft =>
    have hlt : w.writeInBuffer.length < limit := of_decide_eq_true (hw.soft ▸ hsoft)
    refine ⟨hw.max, hworks, ?_, ?_, ?_, ?_⟩
    · show w.handed ++ ((w.writeInBuffer ++ [_]).filter _).map _ = (w.answers ++ [_]).filterMap _
      rw [List.filter_append, List.map_append, ← List.append_assoc, List.filterMap_append]
      exact congrArg (· ++ [data]) hw.order
    · show decide _ = decide ((w.writeInBuffer ++ [_]).length < limit)
      rw [List.length_append, List.length_singleton, hw.max, decide_eq_decide]
      omega
    · show (w.writeInBuffer ++ [_]).length ≤ limit
      rw [List.length_append, List.length_singleton]
      omega
    · exact fun d n hn => hw.refused d n ((List.mem_append.mp hn).resolve_right (by simp))
  | passOn data hempty =>
    refine { hw with worksOnSent := hworks, order := ?_, refused := ?_ }
    · have hnone : w.waiting = [] := by rw [waiting, hempty]; rfl
      have horder := hw.order
      rw [hnone, List.append_nil] at horder
      show w.handed ++ [data] ++ w.waiting = (w.answers ++ [_]).filterMap _
      rw [hnone, List.append_nil, List.filterMap_append]
      exact congrArg (· ++ [data]) horder
    · exact fun d n hn => hw.refused d n ((List.mem_append.mp hn).resolve_right (by simp))
  | subscribe =>
    refine ⟨hw.max, hworks, ?_, ?_, ?_, hw.refused⟩
    · rw [waiting_subscribe]
      exact hw.order
    · rw [modify, List.length_map]
      exact hw.soft
    · rw [modify, List.length_map]
      exact hle
  | remove id rest h =>
    have hbusy : id ∈ w.frames.filterMap BufferGateFrame.action := by
      rw [h]
      exact List.mem_cons_self
    obtain ⟨a, ha, rfl, hsent, -⟩ := hw.worksOnSent id hbusy
    have hlen : (w.writeInBuffer.filter fun b => b.id ≠ a.id).length < w.writeInBuffer.length :=
      List.length_filter_lt_length_iff_exists.mpr ⟨a, ha, by simp⟩
    refine ⟨hw.max, hworks, ?_, ?_, ?_, hw.refused⟩
    · show w.handed ++ _ = w.accepted
      rw [waiting, waiting_remove hs ha hsent]
      exact hw.order
    · exact (decide_eq_true (Nat.lt_of_lt_of_le hlen hle)).symm
    · exact Nat.le_trans (Nat.le_of_lt hlen) hle

theorem Inv.send (hw : Inv limit w) (hs : Sound w) (h : Sends w a) : Inv limit (w.send a) := by
  obtain ⟨l, r, hb, hsent⟩ := h.first
  have hlen : (w.send a).writeInBuffer.length = w.writeInBuffer.length := List.length_map _
  refine ⟨hw.max, hw.worksOnSent.send hs h, ?_, ?_, ?_, hw.refused⟩
  · have hnil : l.filter (fun a => !a.isSent) = [] := by
      apply List.filter_eq_nil_iff.mpr
      intro b hmb
      simp [hsent b hmb]
    have ho := hw.order
    rw [waiting, hb, List.filter_append, hnil, List.filter_cons_of_pos (by simpa using h.unsent)] at ho
    rw [waiting, writeInBuffer_send hs hb, List.filter_append, hnil,
      List.filter_cons_of_neg (by simp)]
    show w.handed ++ [a.data] ++ _ = w.accepted
    rw [← ho]
    simp
  · rw [hlen]
    exact hw.soft
  · rw [hlen]
    exact hw.bounded

theorem Inv.finished (hw : Inv limit w) (hs : Sound w) (ha : a ∈ w.writeInBuffer)
    (hsub : a.subscribed = true) : Inv limit (w.finished a) := by
  have hlen : (w.finished a).writeInBuffer.length = w.writeInBuffer.length := List.length_map _
  refine ⟨hw.max, hw.worksOnSent.finished hs ha hsub, ?_, ?_, ?_, hw.refused⟩
  · rw [show (w.finished a).waiting = w.waiting from waiting_subscribe w a.id false]
    exact hw.order
  · rw [hlen]
    exact hw.soft
  · rw [hlen]
    exact hw.bounded

end Inv

variable {limit : ℕ}

theorem inv_initial (h : 1 ≤ limit) : Inv limit ({ bufferMax := limit } : BufferGate Data) where
  max := rfl
  worksOnSent := List.forall_mem_nil _
  order := rfl
  soft := (decide_eq_true h).symm
  bounded := Nat.zero_le _
  refused := nofun

/-- Every write is answered. The out gate was handed an initial segment of the accepted writes, the
rest waits in the list in order; the list holds at most `limit` writes, and was full whenever a
write was refused. -/
theorem run_in_order (h : 1 ≤ limit) {events : List (BufferGateEvent Data)}
    (hsettled : Runs.Along step Settled { bufferMax := limit } events) :
    ∃ w, Runs.run step ({ bufferMax := limit } : BufferGate Data) events = some w ∧
      w.answers.map WriteAnswer.data = events.filterMap BufferGateEvent.written ∧
      w.handed <+: w.accepted ∧ w.handed ++ w.waiting = w.accepted ∧
      w.writeInBuffer.length ≤ limit ∧ ∀ data n, .refused data n ∈ w.answers → n = limit := by
  obtain ⟨w, hrun, -, hw⟩ := Runs.run_invariant (I := fun w => Sound w ∧ Inv limit w)
    (fun w e hw he => hw.1.step_preserves (fun _ _ hs hv hq => hv.quiet hs hq)
      (fun _ _ hs hv ha => hv.send hs ha) (fun _ _ hs hv ha hsub => hv.finished hs ha hsub) hw.2
      (hw.2.worksOnSent.ready hw.1 he)) ⟨sound_initial limit, inv_initial h⟩ hsettled
  have hanswers := Runs.run_appends (f := fun w => w.answers.map WriteAnswer.data)
    (fun _ _ _ hstep => answers_step hstep) hrun
  exact ⟨w, hrun, hanswers, ⟨w.waiting, hw.order⟩, hw.order, hw.bounded, hw.refused⟩

/-- The second write is refused, the first is handed over once the out gate is writable. -/
theorem run_in_order_one : ∃ w, Runs.run step ({ bufferMax := 1 } : BufferGate ℕ)
    [.write 5, .ret, .write 6, .linkOut, .ret, .update { isLinked := true, isWriteble := true }, .ret,
      .ret, .finish 0, .ret, .ret] = some w ∧ w.answers.map WriteAnswer.data = [5, 6] ∧
      w.handed <+: w.accepted ∧ w.handed ++ w.waiting = w.accepted ∧
      w.writeInBuffer.length ≤ 1 ∧ ∀ data n, .refused data n ∈ w.answers → n = 1 :=
  run_in_order (Nat.le_refl 1) (by decide +kernel)

/-- The handlers of the update event in `Write` link the gate to one that finishes the write. -/
theorem write_erased_before_return : ¬∀ (limit : ℕ) (events : List (BufferGateEvent ℕ)), 1 ≤ limit →
    ∃ w, Runs.run step ({ bufferMax := limit } : BufferGate ℕ) events = some w := by
  intro hall
  obtain ⟨w, hrun⟩ := hall 1 [.linkOut, .ret, .write 5,
    .update { isLinked := true, isWriteble := true }, .ret, .ret, .finish 0, .ret, .ret, .ret]
    (Nat.le_refl 1)
  have hnone : (Runs.run step ({ bufferMax := 1 } : BufferGate ℕ) [.linkOut, .ret, .write 5,
      .update { isLinked := true, isWriteble := true }, .ret, .ret, .finish 0, .ret, .ret,
      .ret]).isNone = true := by decide +kernel
  rw [hrun] at hnone
  cases hnone

end BufferGate
end AetherClient
