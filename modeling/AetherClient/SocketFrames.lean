import AetherClient.Runs
import AetherClient.SocketPacketQueue

set_option autoImplicit false

namespace AetherClient
open StreamDataPacketCollector (frame)

/-- Complete frames of some of the packets, in their order, and at most one that is incomplete at
the end. -/
def WholeFrames (frames : List (List UInt8)) (wire : List UInt8) : Prop :=
  ∃ whole rest, wire = whole.flatten ++ rest ∧
    (rest = [] ∧ whole.Sublist frames ∨
      ∃ last, (whole ++ [last]).Sublist frames ∧ rest <+: last ∧ rest ≠ last)

def SendResult.accepts : SendResult → Bool
  | .accepted n => decide (0 < n)
  | _ => false

namespace UnixPacketSendAction

def partlyWritten (p : UnixPacketSendAction) : Bool :=
  decide (p.state.state = .progress) && decide (0 < p.sentOffset)

def written (p : UnixPacketSendAction) : List UInt8 := p.data.take p.accepted

def incomplete (p : UnixPacketSendAction) : Bool :=
  decide (0 < p.accepted) && decide (p.accepted < p.data.length)

structure Coherent (p : UnixPacketSendAction) : Prop where
  le : p.accepted ≤ p.data.length
  offset : p.state.state.final = false → p.sentOffset = p.accepted
  queued : p.state.state = .queued → p.sentOffset = 0
  dead : p.alive = false → p.state.state.final = true

structure Sent (p : UnixPacketSendAction) (result : SendResult) (p' : UnixPacketSendAction)
    (bytes : List UInt8) : Prop where
  data : p'.data = p.data
  written : p'.written = p.written ++ bytes
  coherent : p'.Coherent
  quiet : result.accepts = false → p'.accepted = p.accepted
  ended : p'.state.state ≠ .progress → p'.accepted = p'.data.length ∨
    p'.accepted = p.accepted ∧ result = .error

theorem Coherent.start {p : UnixPacketSendAction} (h : p.Coherent)
    (hstate : p.state.state = .queued ∨ p.state.state = .progress) :
    p.start.Coherent ∧ p.start.state.state = .progress ∧ p.start.data = p.data ∧
      p.start.accepted = p.accepted := by
  unfold UnixPacketSendAction.start
  split
  · next hqueued =>
    have hfinal : p.state.state.final = false := by rw [hqueued]; rfl
    have hdead : p.alive ≠ false := fun hdead => by
      rw [h.dead hdead] at hfinal
      cases hfinal
    exact ⟨⟨h.le, fun _ => h.offset hfinal, by simp, fun hd => absurd hd hdead⟩, by simp, rfl, rfl⟩
  · next hqueued => exact ⟨h, hstate.resolve_left hqueued, rfl, rfl⟩

theorem sent_of_progress {p : UnixPacketSendAction} (h : p.Coherent)
    (hprogress : p.state.state = .progress) (result : SendResult) :
    Sent p result (p.send result).1 (p.send result).2 := by
  have hstart : p.start = p := if_neg (by rw [hprogress]; decide)
  have hoffset : p.sentOffset = p.accepted := h.offset (by rw [hprogress]; rfl)
  have halive : p.alive ≠ false := fun hdead => by
    have := h.dead hdead
    rw [hprogress] at this
    cases this
  have hlen : (p.data.drop p.accepted).length = p.data.length - p.accepted := List.length_drop
  cases result with
  | wouldBlock =>
    simp only [send, hstart]
    exact ⟨rfl, (List.append_nil _).symm, h, fun _ => rfl, fun hne => absurd hprogress hne⟩
  | error =>
    simp only [send, hstart]
    exact ⟨rfl, (List.append_nil _).symm, ⟨h.le, by simp [PacketSendState.final], by simp,
      fun hdead => absurd hdead halive⟩, fun _ => rfl, fun _ => .inr ⟨rfl, rfl⟩⟩
  | accepted n =>
    simp only [send, hstart, hoffset, hlen]
    split
    · next hlt =>
      refine ⟨rfl, ?_, ⟨?_, ?_, ?_, fun hdead => absurd hdead halive⟩, ?_, fun hne => absurd hprogress hne⟩
      · exact List.take_add
      · simp only
        omega
      · exact fun _ => rfl
      · intro hqueued
        simp only [hprogress] at hqueued
        cases hqueued
      · intro hquiet
        simp only [SendResult.accepts, decide_eq_false_iff_not] at hquiet
        simp only
        omega
    · next hge =>
      have hle := h.le
      refine ⟨rfl, ?_, ⟨?_, ?_, ?_, fun hdead => absurd hdead halive⟩, ?_, fun _ => .inl ?_⟩
      · simp only [written]
        rw [List.take_of_length_le (by omega), List.take_append_drop]
      · simp only
        omega
      · simp [PacketSendState.final]
      · simp
      · intro hquiet
        simp only [SendResult.accepts, decide_eq_false_iff_not] at hquiet
        simp only
        omega
      · simp only
        omega

theorem sent_of_coherent {p : UnixPacketSendAction} (h : p.Coherent)
    (hstate : p.state.state = .queued ∨ p.state.state = .progress) (result : SendResult) :
    Sent p result (p.send result).1 (p.send result).2 := by
  obtain ⟨hstart, hprogress, hdata, haccepted⟩ := h.start hstate
  have hsent := sent_of_progress hstart hprogress result
  have htwice : p.start.start = p.start := if_neg (by rw [hprogress]; decide)
  have hsend : p.start.send result = p.send result := by
    unfold send
    rw [htwice]
  rw [hsend] at hsent
  have hwritten : p.start.written = p.written := by rw [written, written, hdata, haccepted]
  exact ⟨hsent.data.trans hdata, hwritten ▸ hsent.written, hsent.coherent,
    fun hquiet => (hsent.quiet hquiet).trans haccepted,
    fun hne => (hsent.ended hne).imp_right fun hfailed => ⟨hfailed.1.trans haccepted, hfailed.2⟩⟩

theorem Coherent.stop {p : UnixPacketSendAction} (h : p.Coherent) : p.stop.Coherent := by
  unfold UnixPacketSendAction.stop
  split
  · next halive =>
    exact ⟨h.le, by simp [PacketSendState.final], by simp, fun hdead => absurd (halive.symm.trans hdead) nofun⟩
  · exact h

theorem Coherent.update {p : UnixPacketSendAction} (h : p.Coherent) : p.update.Coherent := by
  unfold UnixPacketSendAction.update
  split
  · exact ⟨h.le, h.offset, h.queued, fun hdead => by simpa using hdead⟩
  · exact h

end UnixPacketSendAction

namespace SocketPacketQueueManager
open UnixPacketSendAction

/-- Once a frame was left incomplete, nothing of a later one was written. -/
def Tidy (packets : List UnixPacketSendAction) : Prop :=
  packets.Pairwise fun p q => p.incomplete = true → q.accepted = 0

structure Orderly (left queue : List UnixPacketSendAction) : Prop where
  coherent : ∀ p ∈ left ++ queue, p.Coherent
  waiting : ∀ p ∈ queue.tail, p.accepted = 0
  front : ∀ p ∈ queue, p.incomplete = true → p.state.state = .progress
  tidy : Tidy (left ++ queue)

/-- Nothing is accepted any more after a frame that was left incomplete. -/
def Quiet (left queue : List UnixPacketSendAction) (results : List SendResult) : Prop :=
  left.any incomplete = true ∨
      queue.head?.any incomplete = true ∧ results.head? = some .error →
    ∀ r ∈ results, r.accepts = false

instance (left queue : List UnixPacketSendAction) (results : List SendResult) :
    Decidable (Quiet left queue results) :=
  inferInstanceAs (Decidable (_ → _))

section Loop
variable {left queue : List UnixPacketSendAction} {results : List SendResult}

theorem written_waiting {packets : List UnixPacketSendAction} (h : ∀ p ∈ packets, p.accepted = 0) :
    packets.flatMap written = [] := by
  rw [List.flatMap_eq_nil_iff]
  intro p hp
  rw [written, h p hp, List.take_zero]

theorem Orderly.pop {p p' : UnixPacketSendAction} (h : Orderly left (p :: queue))
    (hcoherent : p'.Coherent) (htidy : ∀ q ∈ left, q.incomplete = true → p'.accepted = 0) :
    Orderly (left ++ [p']) queue := by
  have hwaiting : ∀ q ∈ queue, q.accepted = 0 := h.waiting
  have hnot : ∀ q ∈ queue, q.incomplete = false := by
    intro q hq
    simp [incomplete, hwaiting q hq]
  refine ⟨?_, ?_, ?_, ?_⟩
  · intro q hq
    simp only [List.mem_append, List.mem_singleton, or_assoc] at hq
    obtain hq | rfl | hq := hq
    · exact h.coherent q (by simp [hq])
    · exact hcoherent
    · exact h.coherent q (by simp [hq])
  · exact fun q hq => hwaiting q (List.mem_of_mem_tail hq)
  · intro q hq hincomplete
    rw [hnot q hq] at hincomplete
    cases hincomplete
  · have hold := List.pairwise_append.mp h.tidy
    rw [Tidy, List.append_assoc, List.singleton_append, List.pairwise_append, List.pairwise_cons]
    refine ⟨hold.1, ⟨fun q hq _ => hwaiting q hq, (List.pairwise_cons.mp hold.2.1).2⟩, ?_⟩
    intro q hq q' hq' hincomplete
    obtain rfl | hq' := List.mem_cons.mp hq'
    · exact htidy q hq hincomplete
    · exact hwaiting q' hq'

theorem Orderly.keep {p p' : UnixPacketSendAction} (h : Orderly left (p :: queue))
    (hcoherent : p'.Coherent) (hprogress : p'.state.state = .progress)
    (htidy : ∀ q ∈ left, q.incomplete = true → p'.accepted = 0) : Orderly left (p' :: queue) := by
  have hpop := h.pop hcoherent htidy
  have hsplit : left ++ [p'] ++ queue = left ++ p' :: queue := by simp
  refine ⟨hsplit ▸ hpop.coherent, h.waiting, ?_, hsplit ▸ hpop.tidy⟩
  intro q hq hincomplete
  obtain rfl | hq := List.mem_cons.mp hq
  · exact hprogress
  · exact hpop.front q hq hincomplete

theorem accepted_of_quiet {p : UnixPacketSendAction} (h : Orderly left (p :: queue))
    (hquiet : Quiet left (p :: queue) results) {p' : UnixPacketSendAction} {bytes : List UInt8}
    (hsent : Sent p (results.headD .wouldBlock) p' bytes) :
    ∀ q ∈ left, q.incomplete = true → p'.accepted = 0 := by
  intro q hq hincomplete
  have hp : p.accepted = 0 :=
    (List.pairwise_append.mp h.tidy).2.2 q hq p List.mem_cons_self hincomplete
  have hnothing := hquiet (.inl (List.any_eq_true.mpr ⟨q, hq, hincomplete⟩))
  have hresult : (results.headD .wouldBlock).accepts = false := by
    cases results with
    | nil => rfl
    | cons r results => exact hnothing r List.mem_cons_self
  rw [hsent.quiet hresult, hp]

theorem Quiet.pop {p p' : UnixPacketSendAction} {results' : List SendResult}
    (h : Orderly left (p :: queue)) (hquiet : Quiet left (p :: queue) results)
    (hsub : ∀ r ∈ results', r ∈ results)
    (hp' : p'.incomplete = true → p.incomplete = true ∧ results.head? = some .error) :
    Quiet (left ++ [p']) queue results' := by
  rintro (hleft | ⟨hfront, -⟩) r hr
  · rw [List.any_append, Bool.or_eq_true, List.any_cons, List.any_nil, Bool.or_false] at hleft
    obtain hleft | hincomplete := hleft
    · exact hquiet (.inl hleft) r (hsub r hr)
    · exact hquiet (.inr (hp' hincomplete)) r (hsub r hr)
  · cases queue with
    | nil => cases hfront
    | cons q queue =>
      have hzero := h.waiting q List.mem_cons_self
      simp [incomplete, hzero] at hfront

structure LoopDone (left queue : List UnixPacketSendAction)
    (done : List UnixPacketSendAction × List UnixPacketSendAction × List UInt8) : Prop where
  orderly : Orderly (left ++ done.1) done.2.1
  data : (done.1 ++ done.2.1).map UnixPacketSendAction.data = queue.map UnixPacketSendAction.data
  written : (done.1 ++ done.2.1).flatMap written = queue.flatMap written ++ done.2.2

theorem LoopDone.cons {p p' : UnixPacketSendAction} {bytes : List UInt8}
    {done : List UnixPacketSendAction × List UnixPacketSendAction × List UInt8}
    (h : Orderly left (p :: queue)) (hdata : p'.data = p.data)
    (hwritten : p'.written = p.written ++ bytes) (hdone : LoopDone (left ++ [p']) queue done) :
    LoopDone left (p :: queue) (p' :: done.1, done.2.1, bytes ++ done.2.2) where
  orderly := by simpa using hdone.orderly
  data := by simpa [hdata] using hdone.data
  written := by
    have hrest : queue.flatMap UnixPacketSendAction.written = [] := written_waiting h.waiting
    have hmore := hdone.written
    rw [hrest, List.nil_append] at hmore
    simp only [List.cons_append, List.flatMap_cons, hwritten, hmore, hrest, List.append_nil,
      List.append_assoc]

theorem Orderly.not_incomplete {p : UnixPacketSendAction} (h : Orderly left (p :: queue))
    (hgone : ¬(p.alive = true ∧ (p.state.state = .queued ∨ p.state.state = .progress))) :
    ¬p.incomplete = true := by
  intro hincomplete
  have hprogress := h.front p List.mem_cons_self hincomplete
  have hdead := (h.coherent p (by simp)).dead
  rw [hprogress] at hdead
  apply hgone
  refine ⟨?_, .inr hprogress⟩
  cases halive : p.alive with
  | true => rfl
  | false => cases hdead halive

theorem incomplete_of_sent {p p' : UnixPacketSendAction} {bytes : List UInt8} {r : SendResult}
    (hsent : Sent p r p' bytes) (hended : p'.state.state ≠ .progress)
    (hp' : p'.incomplete = true) : p.incomplete = true ∧ r = .error := by
  simp only [UnixPacketSendAction.incomplete, Bool.and_eq_true, decide_eq_true_eq] at hp' ⊢
  obtain hall | ⟨hsame, hr⟩ := hsent.ended hended
  · omega
  · rw [← hsame, ← hsent.data]
    exact ⟨hp', hr⟩

theorem sendLoop_done (h : Orderly left queue) (hquiet : Quiet left queue results) :
    LoopDone left queue (sendLoop queue results) := by
  induction queue generalizing left results with
  | nil => exact ⟨by simpa [sendLoop] using h, rfl, rfl⟩
  | cons p queue ih =>
    have hp : p.Coherent := h.coherent p (by simp)
    rw [sendLoop]
    split
    · next hlive =>
      have hspec := sent_of_coherent hp hlive.2 (results.headD .wouldBlock)
      rcases hsend : p.send (results.headD .wouldBlock) with ⟨p', bytes⟩
      rw [hsend] at hspec
      have hsent : Sent p (results.headD .wouldBlock) p' bytes := hspec
      have htidy := accepted_of_quiet h hquiet hsent
      simp only
      split
      · next hprogress =>
        have hrest : queue.flatMap written = [] := written_waiting h.waiting
        refine ⟨by simpa using h.keep hsent.coherent hprogress htidy, by simp [hsent.data], ?_⟩
        simp [hrest, hsent.written]
      · next hended =>
        have hpop : Orderly (left ++ [p']) queue := h.pop hsent.coherent htidy
        have hquiet' : Quiet (left ++ [p']) queue results.tail := by
          apply Quiet.pop h hquiet fun r hr => List.mem_of_mem_tail hr
          intro hincomplete
          obtain ⟨hp, herror⟩ := incomplete_of_sent hsent hended hincomplete
          cases results with
          | nil => cases herror
          | cons r results => exact ⟨hp, congrArg some herror⟩
        exact LoopDone.cons h hsent.data hsent.written (ih hpop hquiet')
    · next hgone =>
      have hnot := h.not_incomplete hgone
      have hpop : Orderly (left ++ [p]) queue := h.pop hp fun q hq hincomplete =>
        (List.pairwise_append.mp h.tidy).2.2 q hq p List.mem_cons_self hincomplete
      have hquiet' : Quiet (left ++ [p]) queue results :=
        Quiet.pop h hquiet (fun r hr => hr) fun hincomplete => absurd hincomplete hnot
      exact LoopDone.cons h rfl (List.append_nil _).symm (ih hpop hquiet')

end Loop

def packets (m : SocketPacketQueueManager) : List UnixPacketSendAction := m.left ++ m.queue

structure Inv (m : SocketPacketQueueManager) : Prop where
  orderly : Orderly m.left m.queue
  wire : m.wire = m.packets.flatMap written

/-- A call that goes on behind a frame that was left incomplete. For `send` and `writeSocket` one
was already, or an error hits the front in its middle; a stop leaves the front so. -/
def GoesOn (m : SocketPacketQueueManager) : SocketEvent → Prop
  | .send _ results => ¬Quiet m.left m.queue results
  | .writeSocket results => ¬Quiet m.left m.queue results
  | .stop i => m.packets[i]?.any partlyWritten = true
  | .update _ => False

instance (m : SocketPacketQueueManager) : (e : SocketEvent) → Decidable (GoesOn m e)
  | .send _ results => inferInstanceAs (Decidable (¬Quiet m.left m.queue results))
  | .writeSocket results => inferInstanceAs (Decidable (¬Quiet m.left m.queue results))
  | .stop i => inferInstanceAs (Decidable (m.packets[i]?.any partlyWritten = true))
  | .update _ => inferInstanceAs (Decidable False)

section Steps
variable {m : SocketPacketQueueManager} {results : List SendResult}

theorem Inv.send (h : Inv m) (hquiet : Quiet m.left m.queue results) :
    Inv (m.send results) ∧
      (m.send results).packets.map UnixPacketSendAction.data =
        m.packets.map UnixPacketSendAction.data := by
  have hdone := sendLoop_done h.orderly hquiet
  simp only [SocketPacketQueueManager.send]
  rcases hloop : sendLoop m.queue results with ⟨left, queue, bytes⟩
  rw [hloop] at hdone
  have hwritten : (left ++ queue).flatMap written = m.queue.flatMap written ++ bytes := hdone.written
  have hdata : (left ++ queue).map UnixPacketSendAction.data =
    m.queue.map UnixPacketSendAction.data := hdone.data
  refine ⟨⟨hdone.orderly, ?_⟩, ?_⟩
  · simp only [packets, h.wire, List.append_assoc]
    rw [List.flatMap_append, List.flatMap_append, hwritten, List.append_assoc]
  · simp only [packets, List.append_assoc]
    rw [List.map_append, hdata, List.map_append]

theorem Inv.push (h : Inv m) (data : List UInt8) :
    Inv { m with queue := m.queue ++ [{ data := data }] } := by
  have hnew : Coherent { data := data } := ⟨Nat.zero_le _, fun _ => rfl, fun _ => rfl, nofun⟩
  have hnothing : ∀ p ∈ [({ data := data } : UnixPacketSendAction)], p.accepted = 0 := by simp
  refine ⟨⟨?_, ?_, ?_, ?_⟩, ?_⟩
  · intro p hp
    rw [← List.append_assoc] at hp
    obtain hp | hp := List.mem_append.mp hp
    · exact h.orderly.coherent p hp
    · exact List.mem_singleton.mp hp ▸ hnew
  · intro p hp
    have hwaiting := h.orderly.waiting
    cases hqueue : m.queue with
    | nil => simp [hqueue] at hp
    | cons q queue =>
      simp only [hqueue, List.cons_append, List.tail_cons] at hp hwaiting
      obtain hp | hp := List.mem_append.mp hp
      · exact hwaiting p hp
      · exact hnothing p hp
  · intro p hp hincomplete
    obtain hp | hp := List.mem_append.mp hp
    · exact h.orderly.front p hp hincomplete
    · simp [incomplete, hnothing p hp] at hincomplete
  · rw [Tidy, ← List.append_assoc, List.pairwise_append]
    exact ⟨h.orderly.tidy, List.pairwise_singleton _ _, fun p _ q hq _ => hnothing q hq⟩
  · simp [packets, h.wire, written]

theorem Quiet.push {left queue : List UnixPacketSendAction} (h : Quiet left queue results)
    (data : List UInt8) : Quiet left (queue ++ [{ data := data }]) results := by
  rintro (hleft | ⟨hfront, herror⟩)
  · exact h (.inl hleft)
  · cases queue with
    | nil => simp [incomplete] at hfront
    | cons q queue => exact h (.inr ⟨hfront, herror⟩)

def shape (p : UnixPacketSendAction) : List UInt8 × ℕ := (p.data, p.accepted)

theorem map_shape_modify {f : UnixPacketSendAction → UnixPacketSendAction}
    (hf : ∀ p, shape (f p) = shape p) (l : List UnixPacketSendAction) (i : ℕ) :
    (l.modify i f).map shape = l.map shape := by
  induction l generalizing i with
  | nil => simp
  | cons p l ih =>
    cases i with
    | zero => simp [hf]
    | succ i => simp [ih]

theorem forall_mem_modify {P : UnixPacketSendAction → Prop}
    {f : UnixPacketSendAction → UnixPacketSendAction} {l : List UnixPacketSendAction} (i : ℕ)
    (h : ∀ p ∈ l, P p) (hf : ∀ p, l[i]? = some p → P (f p)) : ∀ p ∈ l.modify i f, P p := by
  intro p hp
  obtain ⟨j, hj⟩ := List.mem_iff_getElem?.mp hp
  rw [List.getElem?_modify] at hj
  obtain ⟨q, hq, rfl⟩ := Option.map_eq_some_iff.mp hj
  split
  · next hij => exact hf q (hij ▸ hq)
  · exact h q (List.mem_of_getElem? hq)

theorem tidy_iff_shape (l : List UnixPacketSendAction) :
    Tidy l ↔ (l.map shape).Pairwise fun p q => 0 < p.2 ∧ p.2 < p.1.length → q.2 = 0 := by
  simp [Tidy, List.pairwise_map, shape, incomplete]

theorem flatMap_written_shape (l : List UnixPacketSendAction) :
    l.flatMap written = (l.map shape).flatMap fun p => p.1.take p.2 := by
  rw [List.flatMap_map]
  rfl

theorem shape_modify {f : UnixPacketSendAction → UnixPacketSendAction}
    (hf : ∀ p, shape (f p) = shape p) (m : SocketPacketQueueManager) (i : ℕ) :
    (m.modify i f).packets.map shape = m.packets.map shape := by
  unfold modify
  split <;> simp only [packets, List.map_append, map_shape_modify hf]

theorem data_modify {f : UnixPacketSendAction → UnixPacketSendAction}
    (hf : ∀ p, shape (f p) = shape p) (m : SocketPacketQueueManager) (i : ℕ) :
    (m.modify i f).packets.map UnixPacketSendAction.data =
      m.packets.map UnixPacketSendAction.data := by
  have hsame := congrArg (List.map Prod.fst) (shape_modify hf m i)
  rw [List.map_map, List.map_map] at hsame
  exact hsame

theorem waiting_modify {f : UnixPacketSendAction → UnixPacketSendAction}
    (hf : ∀ p, shape (f p) = shape p) {queue : List UnixPacketSendAction}
    (h : ∀ p ∈ queue.tail, p.accepted = 0) (i : ℕ) :
    ∀ p ∈ (queue.modify i f).tail, p.accepted = 0 := by
  cases queue with
  | nil => simp
  | cons q queue =>
    cases i with
    | zero => simpa using h
    | succ i =>
      rw [List.modify_succ_cons, List.tail_cons]
      apply forall_mem_modify i h
      intro p hp
      have hsame : (f p).accepted = p.accepted := congrArg Prod.snd (hf p)
      rw [hsame, h p (List.mem_of_getElem? hp)]

theorem Inv.modify {f : UnixPacketSendAction → UnixPacketSendAction} {i : ℕ} (h : Inv m)
    (hshape : ∀ p, shape (f p) = shape p) (hcoherent : ∀ p, Coherent p → Coherent (f p))
    (hfront : ∀ p, m.packets[i]? = some p → p ∈ m.queue → (f p).incomplete = true →
      (f p).state.state = .progress) : Inv (m.modify i f) := by
  have hsame := shape_modify hshape m i
  have htidy : Tidy (m.modify i f).packets := by
    rw [tidy_iff_shape, hsame, ← tidy_iff_shape]
    exact h.orderly.tidy
  have hwire : (m.modify i f).wire = (m.modify i f).packets.flatMap written := by
    rw [flatMap_written_shape, hsame, ← flatMap_written_shape, ← h.wire]
    unfold SocketPacketQueueManager.modify
    split <;> rfl
  obtain ⟨hleft, hqueue⟩ := List.forall_mem_append.mp h.orderly.coherent
  refine ⟨?_, hwire⟩
  by_cases hi : i < m.left.length
  · rw [SocketPacketQueueManager.modify, if_pos hi] at htidy ⊢
    have hleft' := forall_mem_modify i hleft fun p hp =>
      hcoherent p (hleft p (List.mem_of_getElem? hp))
    exact ⟨List.forall_mem_append.mpr ⟨hleft', hqueue⟩, h.orderly.waiting, h.orderly.front, htidy⟩
  · rw [SocketPacketQueueManager.modify, if_neg hi] at htidy ⊢
    have hat : m.packets[i]? = m.queue[i - m.left.length]? := List.getElem?_append_right (by omega)
    have hqueue' := forall_mem_modify (i - m.left.length) hqueue fun p hp =>
      hcoherent p (hqueue p (List.mem_of_getElem? hp))
    have hfront' := forall_mem_modify (i - m.left.length) h.orderly.front fun p hp =>
      hfront p (hat.trans hp) (List.mem_of_getElem? hp)
    refine ⟨List.forall_mem_append.mpr ⟨hleft, hqueue'⟩, ?_, hfront', htidy⟩
    exact waiting_modify hshape h.orderly.waiting _

theorem shape_stop (p : UnixPacketSendAction) : shape p.stop = shape p := by
  unfold UnixPacketSendAction.stop
  split <;> rfl

theorem shape_update (p : UnixPacketSendAction) : shape p.update = shape p := by
  unfold UnixPacketSendAction.update
  split <;> rfl

theorem incomplete_congr {p p' : UnixPacketSendAction} (h : shape p' = shape p) :
    p'.incomplete = p.incomplete := by
  obtain ⟨hdata, haccepted⟩ := Prod.mk.inj h
  simp only [incomplete, hdata, haccepted]

def addedFrames : SocketEvent → List (List UInt8)
  | .send data _ => [frame data]
  | _ => []

theorem Inv.handle (h : Inv m) {e : SocketEvent} (he : ¬GoesOn m e) :
    Inv (m.handle e) ∧ (m.handle e).packets.map UnixPacketSendAction.data =
      m.packets.map UnixPacketSendAction.data ++ addedFrames e := by
  cases e with
  | send data results =>
    have hquiet : Quiet m.left m.queue results := not_not.mp he
    have hpush := h.push (frame data)
    have hdata : (packets { m with queue := m.queue ++ [{ data := frame data }] }).map
        UnixPacketSendAction.data = m.packets.map UnixPacketSendAction.data ++ [frame data] := by
      simp [packets]
    simp only [SocketPacketQueueManager.handle, addPacket]
    split
    · exact ⟨hpush, hdata⟩
    · have hquiet' := hquiet.push (frame data)
      obtain ⟨hinv, hsame⟩ := hpush.send hquiet'
      exact ⟨hinv, hsame.trans hdata⟩
  | writeSocket results =>
    simp only [SocketPacketQueueManager.handle, addedFrames, List.append_nil]
    split
    · exact ⟨h, rfl⟩
    · exact h.send (not_not.mp he)
  | stop i =>
    simp only [addedFrames, List.append_nil]
    refine ⟨h.modify shape_stop (fun p hp => hp.stop) ?_, data_modify shape_stop m i⟩
    intro p hi hp hincomplete
    exfalso
    rw [incomplete_congr (shape_stop p)] at hincomplete
    have hprogress := h.orderly.front p hp hincomplete
    have hoffset := (h.orderly.coherent p (List.mem_append_right _ hp)).offset (by rw [hprogress]; rfl)
    simp only [incomplete, Bool.and_eq_true, decide_eq_true_eq] at hincomplete
    apply he
    simp only [GoesOn, hi, Option.any_some, partlyWritten, hprogress, hoffset, hincomplete.1,
      decide_true, Bool.and_self]
  | update i =>
    simp only [addedFrames, List.append_nil]
    refine ⟨h.modify shape_update (fun p hp => hp.update) ?_, data_modify shape_update m i⟩
    intro p hi hp hincomplete
    rw [incomplete_congr (shape_update p)] at hincomplete
    have hprogress := h.orderly.front p hp hincomplete
    unfold UnixPacketSendAction.update
    split <;> exact hprogress

end Steps

theorem wholeFrames_of_tidy {l : List UnixPacketSendAction} (hle : ∀ p ∈ l, p.accepted ≤ p.data.length)
    (h : Tidy l) : WholeFrames (l.map UnixPacketSendAction.data) (l.flatMap written) := by
  induction l with
  | nil => exact ⟨[], [], rfl, .inl ⟨rfl, List.Sublist.slnil⟩⟩
  | cons p l ih =>
    obtain ⟨hp, hl⟩ := List.pairwise_cons.mp h
    obtain ⟨whole, rest, hwire, hrest⟩ := ih (fun q hq => hle q (List.mem_cons_of_mem p hq)) hl
    have hpl := hle p List.mem_cons_self
    rw [List.flatMap_cons, List.map_cons]
    by_cases hincomplete : p.incomplete = true
    · -- nothing of the packets behind it was written
      have hnothing : l.flatMap written = [] := written_waiting fun q hq => hp q hq hincomplete
      simp only [incomplete, Bool.and_eq_true, decide_eq_true_eq] at hincomplete
      refine ⟨[], p.written, by simp [hnothing], .inr ⟨p.data, by simp, List.take_prefix _ _, ?_⟩⟩
      intro heq
      have hlen := congrArg List.length heq
      rw [written, List.length_take] at hlen
      omega
    · simp only [incomplete, Bool.and_eq_true, decide_eq_true_eq] at hincomplete
      by_cases hzero : p.accepted = 0
      · have hnone : p.written = [] := by rw [written, hzero, List.take_zero]
        refine ⟨whole, rest, by rw [hnone, hwire, List.nil_append], hrest.imp ?_ ?_⟩
        · exact fun hwhole => ⟨hwhole.1, hwhole.2.cons _⟩
        · exact fun ⟨last, hlast, hpre⟩ => ⟨last, hlast.cons _, hpre⟩
      · have hall : p.written = p.data := List.take_of_length_le (by omega)
        refine ⟨p.data :: whole, rest, by rw [hall, hwire, List.flatten_cons, List.append_assoc],
          hrest.imp ?_ ?_⟩
        · exact fun hwhole => ⟨hwhole.1, hwhole.2.cons_cons _⟩
        · exact fun ⟨last, hlast, hpre⟩ => ⟨last, hlast.cons_cons _, hpre⟩

def framesOf (events : List SocketEvent) : List (List UInt8) := events.flatMap addedFrames

theorem run_inv {m : SocketPacketQueueManager} {events : List SocketEvent} (h : Inv m)
    (ha : Runs.Along step (fun m e => ¬GoesOn m e) m events) :
    ∃ m', Runs.run step m events = some m' ∧ Inv m' ∧
      m'.packets.map UnixPacketSendAction.data =
        m.packets.map UnixPacketSendAction.data ++ framesOf events := by
  induction events generalizing m with
  | nil => exact ⟨m, rfl, h, (List.append_nil _).symm⟩
  | cons e events ih =>
    obtain ⟨he, hrest⟩ := ha
    obtain ⟨hinv, hdata⟩ := h.handle he
    obtain ⟨m', hrun, hinv', hdata'⟩ := ih hinv hrest
    refine ⟨m', hrun, hinv', ?_⟩
    rw [hdata', hdata, List.append_assoc]
    rfl

theorem inv_initial : Inv {} :=
  ⟨⟨by simp, by simp, by simp, List.Pairwise.nil⟩, rfl⟩

/-- If no call goes on behind an incomplete frame, the wire carries whole frames. -/
theorem whole_frames (events : List SocketEvent)
    (h : Runs.Along step (fun m e => ¬GoesOn m e) {} events) :
    ∃ m, Runs.run step {} events = some m ∧ WholeFrames (framesOf events) m.wire := by
  obtain ⟨m, hrun, hinv, hdata⟩ := run_inv inv_initial h
  have hwhole := wholeFrames_of_tidy (fun p hp => (hinv.orderly.coherent p hp).le) hinv.orderly.tidy
  refine ⟨m, hrun, ?_⟩
  have hframes : (m.left ++ m.queue).map UnixPacketSendAction.data = framesOf events := hdata
  rw [hframes] at hwhole
  rw [hinv.wire]
  exact hwhole

def partialSends : List SocketEvent :=
  [.send [7, 8] [.accepted 1], .send [9] [], .writeSocket [.accepted 9, .accepted 1],
    .update 0, .writeSocket [.accepted 1]]

theorem whole_frames_partialSends :
    Runs.Along step (fun m e => ¬GoesOn m e) {} partialSends ∧
      ∃ m, Runs.run step {} partialSends = some m ∧ WholeFrames (framesOf partialSends) m.wire := by
  have h : Runs.Along step (fun m e => ¬GoesOn m e) {} partialSends := by decide
  exact ⟨h, whole_frames partialSends h⟩

/-- The owner stops the first packet after one of its three bytes. The second one follows. -/
theorem stopped_frame_followed :
    ∃ m, Runs.run step {} [.send [7, 8] [.accepted 1], .send [9] [], .stop 0,
        .writeSocket [.accepted 2]] = some m ∧ m.wire = [2, 1, 9] ∧
      ¬WholeFrames [frame [7, 8], frame [9]] m.wire := by
  refine ⟨_, rfl, by decide, ?_⟩
  rintro ⟨whole, rest, hwire, hrest⟩
  have hframes : [frame [7, 8], frame [9]] = [[2, 7, 8], [1, 9]] := by decide
  rw [hframes] at hrest
  have hwire : [2, 1, 9] = whole.flatten ++ rest := hwire
  cases whole with
  | nil =>
    obtain ⟨rfl, -⟩ | ⟨last, hlast, hpre, -⟩ := hrest
    · cases hwire
    · obtain rfl : [2, 1, 9] = rest := hwire
      have hmem : last ∈ [[2, 7, 8], [1, 9]] := hlast.subset List.mem_cons_self
      revert hpre
      obtain rfl | rfl := List.mem_pair.mp hmem <;> decide
  | cons w whole =>
    have hmem : w ∈ [[2, 7, 8], [1, 9]] := by
      obtain ⟨-, hsub⟩ | ⟨last, hsub, -⟩ := hrest
      · exact hsub.subset List.mem_cons_self
      · exact hsub.subset List.mem_cons_self
    obtain rfl | rfl := List.mem_pair.mp hmem <;> simp at hwire

end SocketPacketQueueManager

end AetherClient
