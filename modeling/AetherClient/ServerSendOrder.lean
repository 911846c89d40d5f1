import AetherClient.ServerSendQueue

set_option autoImplicit false

namespace AetherClient.ServerSendQueueManager
open Runs ServerSendPacketAction

structure InTurn (m : ServerSendQueueManager) : Prop where
  ordered : m.begun.Pairwise (· < ·)
  busy : m.state.state = .queueBusy → ∃ p ∈ m.queue.head?, p.inProgress = true
  ready : m.transport = true → (∀ p ∈ m.packets, p.inProgress = false) →
    (∃ p ∈ m.queue, p.alive = true) → m.state = ⟨.queueReady, true⟩

/-- What the manager relies on when an event arrives. -/
def ReliedOn (m : ServerSendQueueManager) : SendQueueEvent → Prop
  | .update => m.state = ⟨.queueReady, true⟩ →
      ∀ p ∈ m.packets[m.popped]?, p.alive = true ∧ m.transport = true
  | .updatePacket i => ∀ p ∈ m.packets[i]?,
      p.inProgress = true ∧ p.state.changed = true → p.failing = false
  | _ => True

instance (m : ServerSendQueueManager) : (e : SendQueueEvent) → Decidable (ReliedOn m e)
  | .update => inferInstanceAs (Decidable (_ → _))
  | .updatePacket _ => inferInstanceAs (Decidable (∀ _ ∈ _, _))
  | .add | .setTransport | .resetTransport | .stopPacket _ | .sendEnded _ _ =>
    inferInstanceAs (Decidable True)

structure Inv (m : ServerSendQueueManager) : Prop where
  popped_le : m.popped ≤ m.packets.length
  left : ∀ i p, m.packets[i]? = some p → i < m.popped → p.alive = false
  started : ∀ i p, m.packets[i]? = some p → m.popped ≤ i → p.started = true →
    i = m.popped ∧ m.state.state = .queueBusy
  busy : m.state.state = .queueBusy →
    ∃ p, m.packets[m.popped]? = some p ∧ p.inProgress = true
  ready : m.state.state = .queueReady → m.state.changed = true
  empty : m.state.state = .queueEmpty → m.packets.length ≤ m.popped
  unset : m.state.state = .transportNotSet → m.transport = false
  ordered : m.begun.Pairwise (· < ·)
  begun : ∀ i ∈ m.begun, i < m.popped ∨ i = m.popped ∧ m.state.state = .queueBusy

theorem inv_initial : Inv {} := by
  constructor <;> simp

variable {m : ServerSendQueueManager} {p : ServerSendPacketAction} {i : ℕ}

theorem head_queue (m : ServerSendQueueManager) : m.queue.head? = m.packets[m.popped]? := by
  rw [queue, List.head?_drop]

theorem Inv.inTurn (h : Inv m) : InTurn m where
  ordered := h.ordered
  busy := by
    intro hbusy
    obtain ⟨p, hp, hprogress⟩ := h.busy hbusy
    exact ⟨p, by rw [head_queue]; exact hp, hprogress⟩
  ready := by
    rintro htransport hidle ⟨p, hp, -⟩
    rcases hm : m.state with ⟨state, changed⟩
    have hstate : m.state.state = state := by rw [hm]
    cases state with
    | transportNotSet =>
      rw [h.unset hstate] at htransport
      cases htransport
    | queueReady =>
      have := h.ready hstate
      rw [hm] at this
      cases this
      rfl
    | queueBusy =>
      obtain ⟨q, hq, hprogress⟩ := h.busy hstate
      rw [hidle q (List.mem_of_getElem? hq)] at hprogress
      cases hprogress
    | queueEmpty =>
      rw [queue, List.drop_of_length_le (h.empty hstate)] at hp
      cases hp

theorem Inv.front (h : Inv m) (hp : m.packets[i]? = some p) (hprogress : p.inProgress = true) :
    i = m.popped ∧ m.state.state = .queueBusy := by
  simp only [inProgress, Bool.and_eq_true] at hprogress
  apply h.started i p hp _ hprogress.2
  by_contra hlt
  rw [h.left i p hp (by omega)] at hprogress
  cases hprogress.1

section Steps

theorem packets_modify {f : ServerSendPacketAction → ServerSendPacketAction} {j : ℕ}
    {q : ServerSendPacketAction} (hq : (m.packets.modify i f)[j]? = some q) :
    j = i ∧ (∃ p, m.packets[i]? = some p ∧ q = f p) ∨ j ≠ i ∧ m.packets[j]? = some q := by
  rw [List.getElem?_modify] at hq
  obtain ⟨p, hp, rfl⟩ := Option.map_eq_some_iff.mp hq
  by_cases hi : i = j
  · subst hi
    exact .inl ⟨rfl, p, hp, if_pos rfl⟩
  · rw [if_neg hi]
    exact .inr ⟨fun hj => hi hj.symm, hp⟩

theorem Inv.modify {f : ServerSendPacketAction → ServerSendPacketAction} (h : Inv m)
    (hstarted : ∀ p, (f p).started = p.started) (halive : ∀ p, (f p).alive = true → p.alive = true)
    (hkept : ∀ p, m.packets[i]? = some p → p.inProgress = true → (f p).alive = true) :
    Inv (m.modify i f) := by
  constructor
  case popped_le => simpa [ServerSendQueueManager.modify] using h.popped_le
  case left =>
    intro j q hq hlt
    obtain ⟨rfl, p, hp, rfl⟩ | ⟨-, hq⟩ := packets_modify hq
    · have hdead := h.left j p hp hlt
      by_contra hq
      rw [halive p (by simpa using hq)] at hdead
      cases hdead
    · exact h.left j q hq hlt
  case started =>
    intro j q hq hle
    obtain ⟨rfl, p, hp, rfl⟩ | ⟨-, hq⟩ := packets_modify hq
    · rw [hstarted]
      exact h.started j p hp hle
    · exact h.started j q hq hle
  case busy =>
    intro hbusy
    obtain ⟨p, hp, hprogress⟩ := h.busy hbusy
    refine ⟨if i = m.popped then f p else p, ?_, ?_⟩
    · change (m.packets.modify i f)[m.popped]? = _
      rw [List.getElem?_modify, hp]
      split <;> rfl
    · split
      · next hi =>
        have := hkept p (hi ▸ hp) hprogress
        simp only [inProgress, Bool.and_eq_true] at hprogress ⊢
        rw [hstarted]
        exact ⟨this, hprogress.2⟩
      · exact hprogress
  case empty =>
    intro hempty
    simpa [ServerSendQueueManager.modify] using h.empty hempty
  all_goals first
    | exact h.ready | exact h.unset | exact h.ordered | exact h.begun

theorem Inv.setState (h : Inv m) (hbusy : m.state.state ≠ .queueBusy) {state : SendQueueState}
    {transport : Bool} (hidle : state ≠ .queueBusy)
    (hempty : state = .queueEmpty → m.packets.length ≤ m.popped)
    (hunset : state = .transportNotSet → transport = false) :
    Inv { m with state := ⟨state, true⟩, transport := transport } where
  popped_le := h.popped_le
  left := h.left
  started j q hq hle hstarted := absurd (h.started j q hq hle hstarted).2 hbusy
  busy hstate := absurd hstate hidle
  ready _ := rfl
  empty := hempty
  unset := hunset
  ordered := h.ordered
  begun j hj := .inl ((h.begun j hj).resolve_right fun hfront => hbusy hfront.2)

theorem Inv.push (h : Inv m) (hempty : m.state.state ≠ .queueEmpty) :
    Inv { m with packets := m.packets ++ [({} : ServerSendPacketAction)] } := by
  have hnew : ∀ {j : ℕ} {q}, (m.packets ++ [({} : ServerSendPacketAction)])[j]? = some q →
      m.packets[j]? = some q ∨ m.packets.length ≤ j ∧ q = {} := by
    intro j q hq
    rw [List.getElem?_append] at hq
    split at hq
    · exact .inl hq
    · next hj =>
      obtain rfl := List.mem_singleton.mp (List.mem_of_getElem? hq)
      exact .inr ⟨by omega, rfl⟩
  have hpopped : m.popped ≤ m.packets.length := h.popped_le
  constructor
  case left =>
    intro j q hq hlt
    obtain hq | ⟨hj, rfl⟩ := hnew hq
    · exact h.left j q hq hlt
    · simp only at hlt
      omega
  case started =>
    intro j q hq hle hstarted
    obtain hq | ⟨hj, rfl⟩ := hnew hq
    · exact h.started j q hq hle hstarted
    · cases hstarted
  case busy =>
    intro hbusy
    obtain ⟨p, hp, hprogress⟩ := h.busy hbusy
    refine ⟨p, ?_, hprogress⟩
    simp only
    rw [List.getElem?_append_left (List.getElem?_eq_some_iff.mp hp).1, hp]
  case empty => exact fun h => absurd h hempty
  case popped_le =>
    simp only [List.length_append]
    omega
  all_goals first
    | exact h.ready | exact h.unset | exact h.ordered | exact h.begun

theorem Inv.add (h : Inv m) : Inv m.add := by
  unfold ServerSendQueueManager.add
  simp only
  split
  · next hempty =>
    have hready : m.state.set .queueReady = ⟨.queueReady, true⟩ := if_pos (by rw [hempty]; decide)
    rw [hready]
    have hidle : m.state.state ≠ .queueBusy := by rw [hempty]; decide
    have hinv : Inv { m with state := ⟨.queueReady, true⟩ } := h.setState hidle nofun nofun nofun
    exact hinv.push nofun
  · next hempty => exact h.push hempty

theorem Inv.setTransport (h : Inv m) : Inv m.setTransport := by
  unfold ServerSendQueueManager.setTransport
  simp only
  split
  · next hunset =>
    have hready : m.state.set .queueReady = ⟨.queueReady, true⟩ := if_pos (by rw [hunset]; decide)
    rw [hready]
    exact h.setState (by rw [hunset]; decide) nofun nofun nofun
  · next hset => exact { h with unset := fun hunset => absurd hunset hset }

theorem resetTransport_eq (m : ServerSendQueueManager) :
    m.resetTransport = { m with transport := false } := by
  unfold ServerSendQueueManager.resetTransport
  simp only
  split
  · next hunset =>
    have hsame : m.state.set .transportNotSet = m.state := if_neg (not_not.mpr hunset)
    simp only [hsame]
  · rfl

theorem Inv.resetTransport (h : Inv m) : Inv m.resetTransport := by
  rw [resetTransport_eq]
  exact { h with unset := fun _ => rfl }

theorem Inv.start (h : Inv m) (hbusy : m.state.state ≠ .queueBusy)
    (hp : m.packets[m.popped]? = some p) (halive : p.alive = true) :
    Inv { m.modify m.popped ServerSendPacketAction.enqueue with
      state := ⟨.queueBusy, true⟩
      begun := m.begun ++ [m.popped] } := by
  have hlt : ∀ j ∈ m.begun, j < m.popped := fun j hj =>
    (h.begun j hj).resolve_right fun hfront => hbusy hfront.2
  constructor
  case popped_le => simpa [ServerSendQueueManager.modify] using h.popped_le
  case left =>
    intro j q hq hj
    obtain ⟨rfl, -⟩ | ⟨-, hq⟩ := packets_modify hq
    · exact absurd hj (Nat.lt_irrefl _)
    · exact h.left j q hq hj
  case started =>
    intro j q hq hle hstarted
    obtain ⟨rfl, -⟩ | ⟨-, hq⟩ := packets_modify hq
    · exact ⟨rfl, rfl⟩
    · exact absurd (h.started j q hq hle hstarted).2 hbusy
  case busy =>
    intro _
    refine ⟨p.enqueue, ?_, ?_⟩
    · simp [ServerSendQueueManager.modify, hp]
    · simpa [inProgress, ServerSendPacketAction.enqueue] using halive
  case ordered =>
    rw [List.pairwise_append]
    refine ⟨h.ordered, List.pairwise_singleton _ _, ?_⟩
    intro j hj k hk
    rw [List.mem_singleton.mp hk]
    exact hlt j hj
  case begun =>
    intro j hj
    obtain hj | hj := List.mem_append.mp hj
    · exact .inl (hlt j hj)
    · exact .inr ⟨List.mem_singleton.mp hj, rfl⟩
  all_goals nofun

theorem update_of_ready (hready : m.state = ⟨.queueReady, true⟩) :
    m.update = match m.packets[m.popped]? with
      | none => some { m with state := ⟨.queueEmpty, true⟩ }
      | some p =>
        if p.alive ∧ m.transport then
          some { m.modify m.popped ServerSendPacketAction.enqueue with
            state := ⟨.queueBusy, true⟩
            begun := m.begun ++ [m.popped] }
        else none := by
  rw [ServerSendQueueManager.update, hready]
  rfl

theorem Inv.update (h : Inv m) (hrelied : ReliedOn m .update) :
    ∃ m', m.update = some m' ∧ Inv m' := by
  by_cases hready : m.state = ⟨.queueReady, true⟩
  · have hbusy : m.state.state ≠ .queueBusy := by rw [hready]; decide
    rw [update_of_ready hready]
    cases hp : m.packets[m.popped]? with
    | none => exact ⟨_, rfl, h.setState hbusy nofun (fun _ => List.getElem?_eq_none_iff.mp hp) nofun⟩
    | some p =>
      have hrelied := hrelied hready p hp
      exact ⟨_, if_pos hrelied, h.start hbusy hp hrelied.1⟩
  · have hnot : m.state.state ≠ .queueReady := fun hstate => hready (by
      rw [← hstate, ← h.ready hstate])
    rw [ServerSendQueueManager.update]
    by_cases hchanged : m.state.changed = true
    · rw [if_pos hchanged]
      exact ⟨_, if_neg hnot, { h with ready := fun hstate => absurd hstate hnot }⟩
    · rw [if_neg hchanged]
      exact ⟨m, rfl, h⟩

theorem Inv.finishFront (h : Inv m) (hp : m.packets[m.popped]? = some p)
    (hbusy : m.state.state = .queueBusy) : Inv (m.enqueueNext.modify m.popped finish) := by
  have hlt : m.popped < m.packets.length := (List.getElem?_eq_some_iff.mp hp).1
  have hready : m.state.set .queueReady = ⟨.queueReady, true⟩ := if_pos (by rw [hbusy]; decide)
  have hnext : m.enqueueNext = { m with popped := m.popped + 1, state := ⟨.queueReady, true⟩ } := by
    unfold enqueueNext
    rw [if_pos hlt, if_pos hbusy, hready]
  rw [hnext]
  constructor
  case popped_le =>
    simp only [ServerSendQueueManager.modify, List.length_modify]
    omega
  case left =>
    intro j q hq hj
    obtain ⟨rfl, q', -, rfl⟩ | ⟨hne, hq⟩ := packets_modify hq
    · rfl
    · exact h.left j q hq (by simp only [ServerSendQueueManager.modify] at hj; omega)
  case started =>
    intro j q hq hle hstarted
    simp only [ServerSendQueueManager.modify] at hle
    obtain ⟨rfl, -⟩ | ⟨hne, hq⟩ := packets_modify hq
    · omega
    · exact absurd (h.started j q hq (by omega) hstarted).1 hne
  case begun =>
    intro j hj
    left
    obtain hlt | ⟨rfl, -⟩ := h.begun j hj
    · exact Nat.lt_succ_of_lt hlt
    · exact Nat.lt_succ_self _
  case ready => exact fun _ => rfl
  case ordered => exact h.ordered
  all_goals nofun

theorem Inv.finishWaiting (h : Inv m) (hp : m.packets[i]? = some p) (hwaits : p.started = false) :
    Inv (m.modify i finish) := by
  apply Inv.modify (f := finish) h (fun _ => rfl) (fun _ hdead => by cases hdead)
  intro q hq hprogress
  obtain rfl := Option.some.inj (hp.symm.trans hq)
  rw [inProgress, hwaits, Bool.and_false] at hprogress
  cases hprogress

theorem Inv.modify_of_alive {f : ServerSendPacketAction → ServerSendPacketAction} (h : Inv m)
    (hf : ∀ p, (f p).started = p.started ∧ (f p).alive = p.alive) (i : ℕ) : Inv (m.modify i f) := by
  apply h.modify (fun p => (hf p).1) (fun p halive => (hf p).2.symm.trans halive)
  intro p _ hprogress
  rw [inProgress, Bool.and_eq_true] at hprogress
  exact (hf p).2.trans hprogress.1

theorem Inv.updatePacket (h : Inv m) (hrelied : ReliedOn m (.updatePacket i)) :
    Inv (m.updatePacket i) := by
  have hacquired : Inv (m.modify i ServerSendPacketAction.acquire) :=
    h.modify_of_alive (f := ServerSendPacketAction.acquire) (fun _ => ⟨rfl, rfl⟩) i
  unfold ServerSendQueueManager.updatePacket
  split
  · exact h
  · next p hp =>
    have hp' : (m.modify i ServerSendPacketAction.acquire).packets[i]? = some p.acquire := by
      simp [ServerSendQueueManager.modify, hp]
    split
    · next hchanged =>
      cases hstate : p.state.state with
      | queued | progress => exact hacquired
      | success | stopped =>
        simp only
        split
        · next hstarted =>
          obtain ⟨rfl, hbusy⟩ := h.front hp (by simp [inProgress, hchanged.1, hstarted])
          exact hacquired.finishFront hp' hbusy
        · next hstarted => exact hacquired.finishWaiting hp' (Bool.eq_false_iff.mpr hstarted)
      | timeout | failed | panic =>
        simp only
        split
        · next hstarted =>
          have := hrelied p hp ⟨by simp [inProgress, hchanged.1, hstarted], hchanged.2⟩
          simp [failing, hstate] at this
        · next hstarted =>
          have hreset := hacquired.resetTransport
          rw [resetTransport_eq] at hreset ⊢
          exact hreset.finishWaiting hp' (Bool.eq_false_iff.mpr hstarted)
    · exact h

theorem Inv.not_inTurn_of_failing (h : Inv m) (hp : m.packets[i]? = some p)
    (hprogress : p.inProgress = true ∧ p.state.changed = true) (hfailing : p.failing = true) :
    ¬InTurn (m.updatePacket i) := by
  obtain ⟨rfl, hbusy⟩ := h.front hp hprogress.1
  simp only [inProgress, Bool.and_eq_true] at hprogress
  intro hturn
  have hstays : (m.updatePacket m.popped).state = m.state ∧
      (m.updatePacket m.popped).popped = m.popped ∧
      (m.updatePacket m.popped).packets[m.popped]? = some p.acquire.dequeue.finish := by
    unfold ServerSendQueueManager.updatePacket
    rw [hp]
    simp only [failing, decide_eq_true_eq] at hfailing
    obtain hstate | hstate | hstate := hfailing
    all_goals simp [hprogress, hstate, resetTransport_eq, ServerSendQueueManager.modify, hp]
  obtain ⟨q, hq, hlive⟩ := hturn.busy (hstays.1 ▸ hbusy)
  rw [head_queue, hstays.2.1, hstays.2.2] at hq
  cases hq
  cases hlive

theorem Inv.step (h : Inv m) (e : SendQueueEvent) (hrelied : ReliedOn m e) :
    ∃ m', m.step e = some m' ∧ Inv m' := by
  cases e with
  | add => exact ⟨_, rfl, h.add⟩
  | setTransport => exact ⟨_, rfl, h.setTransport⟩
  | resetTransport => exact ⟨_, rfl, h.resetTransport⟩
  | update => exact h.update hrelied
  | updatePacket i => exact ⟨_, rfl, h.updatePacket hrelied⟩
  | stopPacket i =>
    refine ⟨_, rfl, h.modify_of_alive ?_ i⟩
    intro p
    unfold stop
    split <;> exact ⟨rfl, rfl⟩
  | sendEnded i state =>
    refine ⟨_, rfl, h.modify_of_alive ?_ i⟩
    intro p
    unfold sendEnded
    split <;> exact ⟨rfl, rfl⟩

theorem Inv.reliedOn_of_inTurn {m' : ServerSendQueueManager} (h : Inv m) (e : SendQueueEvent)
    (hstep : m.step e = some m') (hturn : InTurn m') : ReliedOn m e := by
  cases e with
  | add | setTransport | resetTransport | stopPacket _ | sendEnded _ _ => trivial
  | update =>
    intro hready p hp
    by_contra hnot
    have hupdate : m.update = some m' := hstep
    simp only [update_of_ready hready, Option.mem_def.mp hp, if_neg hnot] at hupdate
    cases hupdate
  | updatePacket i =>
    intro p hp hprogress
    by_contra hfailing
    cases hstep
    exact h.not_inTurn_of_failing hp hprogress (by simpa using hfailing) hturn

end Steps

/-- The packets are started in turn, in all of a run, if and only if no packet ends with an error
in the run and the manager starts only packets that are still there, and on a transport. -/
theorem inTurn_iff (es : List SendQueueEvent) :
    (∀ fs, fs <+: es → ∃ m, run step {} fs = some m ∧ InTurn m) ↔ Along step ReliedOn {} es :=
  (along_iff (fun _ h => h.inTurn) (fun _ e h => h.step e)
    (fun _ e _ h => h.reliedOn_of_inTurn e) inv_initial).symm

-- Two packets are sent in turn, and a third is stopped while it is being sent.
example : Along step ReliedOn {} [.add, .add, .setTransport, .update, .sendEnded 0 .success,
    .updatePacket 0, .update, .add, .sendEnded 1 .success, .updatePacket 1, .update, .stopPacket 2,
    .updatePacket 2, .update] := by decide

/-- A packet fails on its transport: it is erased, but the manager waits for it for good. -/
theorem failed_packet_blocks :
    ¬∀ es fs : List SendQueueEvent, fs <+: es → ∃ m, run step {} fs = some m ∧ InTurn m := by
  intro h
  obtain ⟨m, hrun, hturn⟩ := h [.add, .add, .setTransport, .update, .sendEnded 0 .failed,
    .updatePacket 0] _ List.prefix_rfl
  have hbusy : m.state.state = .queueBusy :=
    run_observe (f := fun m => m.state.state) hrun (by decide)
  have hfront : m.queue.head?.map inProgress = some false :=
    run_observe (f := fun m => m.queue.head?.map inProgress) hrun (by decide)
  obtain ⟨p, hp, hprogress⟩ := hturn.busy hbusy
  rw [Option.mem_def.mp hp, Option.map_some, hprogress] at hfront
  cases hfront

end AetherClient.ServerSendQueueManager
