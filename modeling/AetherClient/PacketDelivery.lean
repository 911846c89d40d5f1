import AetherClient.PacketFraming
import Mathlib.Data.List.Induction

set_option autoImplicit false

namespace AetherClient.StreamDataPacketCollector

def frame (p : List UInt8) : List UInt8 := PacketSize.serialize p.length ++ p

def stream (packets : List (List UInt8)) : List UInt8 := (packets.map frame).flatten

/-- The packets whose frames lie wholly in the first `n` bytes of the stream. -/
def completed : List (List UInt8) → ℕ → List (List UInt8)
  | [], _ => []
  | p :: packets, n =>
    if (frame p).length ≤ n then p :: completed packets (n - (frame p).length) else []

inductive CollectorEvent where
  | addData (piece : List UInt8)
  | popPacket
deriving DecidableEq, Repr

def call (alloc : ℕ → Bool) (s : StreamDataPacketCollector × List (List UInt8)) :
    CollectorEvent → Option (StreamDataPacketCollector × List (List UInt8))
  | .addData piece => (addData alloc s.1 piece).map fun c => (c, s.2)
  | .popPacket => some (s.1.popPacket.2, s.2 ++ [s.1.popPacket.1])

def added (events : List CollectorEvent) : List UInt8 :=
  (events.map fun
    | .addData piece => piece
    | .popPacket => []).flatten

def nonEmpty (results : List (List UInt8)) : List (List UInt8) := results.filter (· ≠ [])

theorem added_append (es fs : List CollectorEvent) : added (es ++ fs) = added es ++ added fs := by
  simp [added]

@[simp] theorem stream_cons (p : List UInt8) (packets : List (List UInt8)) :
    stream (p :: packets) = frame p ++ stream packets := by
  simp [stream]

@[simp] theorem stream_append (ps qs : List (List UInt8)) :
    stream (ps ++ qs) = stream ps ++ stream qs := by
  simp [stream]

section Prepend
variable {alloc : ℕ → Bool}

def prepend (q : Packet) (c : StreamDataPacketCollector) : StreamDataPacketCollector :=
  { c with packets := q :: c.packets }

theorem betweenPackets_prepend {q : Packet} (hq : isPacketComplete q = true)
    (c : StreamDataPacketCollector) : (prepend q c).betweenPackets = c.betweenPackets := by
  obtain ⟨packets, temp⟩ := c
  cases packets with
  | nil => simp [prepend, betweenPackets, hq]
  | cons p packets => simp [prepend, betweenPackets, List.getLast?_cons_cons]

theorem addByte_prepend {q : Packet} (hq : isPacketComplete q = true)
    (c : StreamDataPacketCollector) (b : UInt8) :
    addByte alloc (prepend q c) b =
      (addByte alloc c b).map fun next => (prepend q next.1, next.2) := by
  unfold addByte
  rw [betweenPackets_prepend hq]
  cases hbetween : c.betweenPackets with
  | true =>
    simp only [if_true, show (prepend q c).tempDataBuffer = c.tempDataBuffer from rfl]
    split <;> rfl
  | false =>
    obtain ⟨packets, temp⟩ := c
    cases packets with
    | nil => simp [betweenPackets] at hbetween
    | cons p packets =>
      simp only [prepend, List.getLast?_cons_cons, Bool.false_eq_true, if_false]
      split
      · rfl
      · split <;> rfl

theorem feed_prepend {q : Packet} (hq : isPacketComplete q = true)
    (c : StreamDataPacketCollector) (data : List UInt8) :
    feed alloc (prepend q c) data =
      (feed alloc c data).map fun next => (prepend q next.1, next.2) := by
  induction data generalizing c with
  | nil => rfl
  | cons b data ih =>
    rw [feed, feed, addByte_prepend hq]
    cases addByte alloc c b with
    | none => rfl
    | some next =>
      obtain ⟨c, stop⟩ := next
      cases stop with
      | true => rfl
      | false => exact ih c

end Prepend

def whole (p : List UInt8) : Packet := ⟨p, p.length, p.length⟩

/-- The packets `ready` wait to be popped, and `x` is what has arrived of the frame of the
first packet of `todo`. -/
structure Underway (alloc : ℕ → Bool) (c : StreamDataPacketCollector)
    (ready todo : List (List UInt8)) (x : List UInt8) : Prop where
  fed : feed alloc ⟨ready.map whole, []⟩ x = some (c, false)
  cut : (todo = [] ∧ x = []) ∨ ∃ p rest z, todo = p :: rest ∧ frame p = x ++ z ∧ z ≠ []

structure Sendable (alloc : ℕ → Bool) (p : List UInt8) : Prop where
  nonempty : p ≠ []
  length_lt : p.length < PacketSize.limit
  allocated : alloc p.length = true

section Delivery
variable {alloc : ℕ → Bool} {c : StreamDataPacketCollector}
  {ready todo : List (List UInt8)} {x p : List UInt8}

theorem isPacketComplete_whole (p : List UInt8) : isPacketComplete (whole p) = true := by
  simp [isPacketComplete, whole]

theorem betweenPackets_whole (ready : List (List UInt8)) (temp : List UInt8) :
    betweenPackets ⟨ready.map whole, temp⟩ = true := by
  rw [betweenPackets, List.getLast?_map]
  cases ready.getLast? with
  | none => rfl
  | some p => exact isPacketComplete_whole p

theorem Sendable.codes (hp : Sendable alloc p) :
    PacketSize.Codes p.length (PacketSize.serialize p.length) :=
  PacketSize.codes_serialize hp.length_lt

theorem Sendable.length_ne_zero (hp : Sendable alloc p) : p.length ≠ 0 := by
  simpa using hp.nonempty

theorem serialize_ne_nil (hp : Sendable alloc p) : PacketSize.serialize p.length ≠ [] := by
  intro hnil
  have := hp.codes.extract_eq_some (y := []) 0 .no
  rw [hnil, List.append_nil, extract_nil] at this
  simp at this

theorem Sendable.feed_serialize (hp : Sendable alloc p) (ready : List (List UInt8)) :
    feed alloc ⟨ready.map whole, []⟩ (PacketSize.serialize p.length) =
      some (⟨ready.map whole ++ [⟨[], p.length, p.length⟩], []⟩, false) := by
  rw [feed_size (betweenPackets_whole ready []) (serialize_ne_nil hp) (by simpa using hp.codes)]
  simp [startPacket, hp.length_ne_zero, Packet.ofSize, hp.allocated]

theorem Sendable.feed_body (hp : Sendable alloc p) (ready : List (List UInt8)) {y : List UInt8}
    (hy : y.length ≤ p.length) :
    feed alloc ⟨ready.map whole, []⟩ (PacketSize.serialize p.length ++ y) =
      some (⟨ready.map whole ++ [⟨y, p.length, p.length⟩], []⟩, false) := by
  rw [feed_append, hp.feed_serialize]
  have hbody : feed alloc ⟨ready.map whole ++ [⟨[], p.length, p.length⟩], []⟩ y =
      some (⟨ready.map whole ++ [Packet.append ⟨[], p.length, p.length⟩ y], []⟩, false) :=
    StreamDataPacketCollector.feed_body (Nat.le_refl _) (by simpa [Packet.availableCapacity] using hy)
  exact hbody

theorem Sendable.feed_frame (hp : Sendable alloc p) (ready : List (List UInt8)) :
    feed alloc ⟨ready.map whole, []⟩ (frame p) = some (⟨(ready ++ [p]).map whole, []⟩, false) := by
  rw [frame, hp.feed_body ready (Nat.le_refl _)]
  simp [whole]

theorem Sendable.feed_part (hp : Sendable alloc p) {z : List UInt8} (hz : z ≠ [])
    (hx : frame p = x ++ z) :
    ∃ c, feed alloc {} x = some (c, false) ∧ completedPackets c = [] ∧ c.popPacket = ([], c) := by
  have hzlen : 0 < z.length := List.length_pos_iff.mpr hz
  obtain ⟨y, hxy, hp'⟩ | ⟨y, hser, -⟩ := List.append_eq_append_iff.mp hx
  · have hy : y.length < p.length := by
      rw [hp', List.length_append]
      omega
    rw [hxy]
    refine ⟨_, hp.feed_body [] (Nat.le_of_lt hy), ?_, ?_⟩
    · simp [completedPackets, isPacketComplete, Nat.ne_of_lt hy]
    · simp [popPacket, isPacketComplete, Nat.ne_of_lt hy]
  · cases y with
    | nil =>
      rw [List.append_nil] at hser
      rw [← hser]
      refine ⟨_, hp.feed_serialize [], ?_, ?_⟩
      · simp [completedPackets, isPacketComplete, hp.length_ne_zero.symm]
      · simp [popPacket, isPacketComplete, hp.length_ne_zero.symm]
    | cons b y =>
      have hpartial : (PacketSize.extract ⟨[] ++ x, 0, .no⟩).1 = none :=
        PacketSize.Codes.extract_eq_none (hser ▸ hp.codes) (by simp) 0 .no
      exact ⟨_, feed_partialSize rfl hpartial, rfl, rfl⟩

theorem exists_feed_whole (ready : List (List UInt8)) (h : feed alloc {} x = some (c, false)) :
    ∃ d, feed alloc ⟨ready.map whole, []⟩ x = some (d, false) := by
  induction ready with
  | nil => exact ⟨c, h⟩
  | cons p ready ih =>
    obtain ⟨d, hd⟩ := ih
    refine ⟨prepend (whole p) d, ?_⟩
    exact (feed_prepend (isPacketComplete_whole p) ⟨ready.map whole, []⟩ x).trans (by rw [hd]; rfl)

theorem completedPackets_prepend (p : List UInt8) (c : StreamDataPacketCollector) :
    completedPackets (prepend (whole p) c) = p :: completedPackets c := by
  simp only [completedPackets, prepend, List.filter_cons, isPacketComplete_whole, if_true,
    List.map_cons]
  rfl

theorem popPacket_prepend (p : List UInt8) (c : StreamDataPacketCollector) :
    (prepend (whole p) c).popPacket = (p, c) := by
  simp only [popPacket, prepend, isPacketComplete_whole, if_true]
  rfl

theorem Underway.pop (h : Underway alloc c ready todo x) (htodo : ∀ p ∈ todo, Sendable alloc p) :
    completedPackets c = ready ∧ c.popPacket.1 = ready.headD [] ∧
      Underway alloc c.popPacket.2 ready.tail todo x := by
  induction ready generalizing c with
  | nil =>
    obtain ⟨rfl, rfl⟩ | ⟨p, rest, z, rfl, hx, hz⟩ := h.cut
    · have hc : c = {} := by simpa [feed] using h.fed.symm
      subst hc
      exact ⟨rfl, rfl, h⟩
    · obtain ⟨d, hfed, hnone, hpop⟩ := (htodo p (by simp)).feed_part hz hx
      have hcd : c = d := by
        have := h.fed.symm.trans hfed
        simpa using this
      subst hcd
      rw [hpop]
      exact ⟨hnone, rfl, h⟩
  | cons p ready ih =>
    have hfed := h.fed
    rw [show (⟨(p :: ready).map whole, []⟩ : StreamDataPacketCollector) =
      prepend (whole p) ⟨ready.map whole, []⟩ from rfl,
      feed_prepend (isPacketComplete_whole p)] at hfed
    obtain ⟨⟨d, stop⟩, hd, heq⟩ := Option.map_eq_some_iff.mp hfed
    simp only [Prod.mk.injEq] at heq
    obtain ⟨rfl, rfl⟩ := heq
    have hrest : Underway alloc d ready todo x := ⟨hd, h.cut⟩
    obtain ⟨hcompleted, -, -⟩ := ih hrest
    rw [completedPackets_prepend, popPacket_prepend, hcompleted]
    exact ⟨rfl, rfl, hrest⟩

theorem feed_underway (ready : List (List UInt8)) (htodo : ∀ p ∈ todo, Sendable alloc p)
    (hx : x <+: stream todo) :
    ∃ c' more todo' x', feed alloc ⟨ready.map whole, []⟩ x = some (c', false) ∧
      todo = more ++ todo' ∧ x = stream more ++ x' ∧
      Underway alloc c' (ready ++ more) todo' x' := by
  induction todo generalizing ready x with
  | nil =>
    have hnil : x = [] := by simpa [stream] using hx
    subst hnil
    refine ⟨_, [], [], [], rfl, rfl, rfl, ?_⟩
    rw [List.append_nil]
    exact ⟨rfl, .inl ⟨rfl, rfl⟩⟩
  | cons p todo ih =>
    have hp := htodo p (by simp)
    obtain ⟨t, ht⟩ := hx
    rw [stream_cons] at ht
    obtain ⟨z, hframe, -⟩ | ⟨y, hy, hrest⟩ := List.append_eq_append_iff.mp ht
    · cases z with
      | nil =>
        rw [List.append_nil] at hframe
        rw [← hframe]
        refine ⟨_, [p], todo, [], hp.feed_frame ready, rfl, by simp [stream], rfl, ?_⟩
        cases todo with
        | nil => exact .inl ⟨rfl, rfl⟩
        | cons q todo =>
          have hq := htodo q (by simp)
          exact .inr ⟨q, todo, frame q, rfl, (List.nil_append _).symm, by simp [frame, hq.nonempty]⟩
      | cons b z =>
        obtain ⟨c', hfeed, -, -⟩ := hp.feed_part (List.cons_ne_nil b z) hframe
        obtain ⟨d, hd⟩ := exists_feed_whole ready hfeed
        refine ⟨d, [], p :: todo, x, hd, rfl, rfl, ?_⟩
        rw [List.append_nil]
        exact ⟨hd, .inr ⟨p, todo, b :: z, rfl, hframe, List.cons_ne_nil b z⟩⟩
    · obtain ⟨c', more, todo', x', hfeed, hsplit, hxeq, hunder⟩ :=
        ih (ready ++ [p]) (fun q hq => htodo q (by simp [hq])) ⟨t, hrest.symm⟩
      refine ⟨c', p :: more, todo', x', ?_, by simp [hsplit], by simp [hy, hxeq], by simpa using hunder⟩
      rw [hy, feed_append, hp.feed_frame]
      exact hfeed

theorem consistent_whole (ready : List (List UInt8)) : Consistent ⟨ready.map whole, []⟩ := by
  refine ⟨extract_nil, fun _ => rfl, ?_⟩
  intro p hp
  obtain ⟨q, -, rfl⟩ := List.mem_map.mp (List.mem_of_getLast? hp)
  exact Nat.le_refl _

theorem Underway.addData (h : Underway alloc c ready todo x)
    (htodo : ∀ p ∈ todo, Sendable alloc p) {piece : List UInt8}
    (hx : x ++ piece <+: stream todo) :
    ∃ c' more todo' x', addData alloc c piece = some c' ∧ todo = more ++ todo' ∧
      x ++ piece = stream more ++ x' ∧ Underway alloc c' (ready ++ more) todo' x' := by
  obtain ⟨c', more, todo', x', hfeed, hsplit, hxeq, hunder⟩ :=
    feed_underway ready htodo hx
  refine ⟨c', more, todo', x', ?_, hsplit, hxeq, hunder⟩
  rw [feed_append, h.fed] at hfeed
  rw [addData_eq_feed ((consistent_whole ready).feed h.fed)]
  simp only at hfeed
  rw [hfeed]
  rfl

theorem completed_append (ps qs : List (List UInt8)) (n : ℕ) :
    completed (ps ++ qs) ((stream ps).length + n) = ps ++ completed qs n := by
  induction ps with
  | nil => simp [stream]
  | cons p ps ih =>
    have hle : (frame p).length ≤ (stream (p :: ps)).length + n := by
      rw [stream_cons, List.length_append]
      omega
    have hsub : (stream (p :: ps)).length + n - (frame p).length = (stream ps).length + n := by
      rw [stream_cons, List.length_append]
      omega
    rw [List.cons_append, completed, if_pos hle, hsub, ih, List.cons_append]

theorem Underway.completed_eq_nil (h : Underway alloc c ready todo x) :
    completed todo x.length = [] := by
  obtain ⟨rfl, rfl⟩ | ⟨p, rest, z, rfl, hx, hz⟩ := h.cut
  · rfl
  · have hzlen : 0 < z.length := List.length_pos_iff.mpr hz
    rw [completed, if_neg]
    rw [hx, List.length_append]
    omega

theorem nonEmpty_append (rs : List (List UInt8)) (r : List UInt8) :
    nonEmpty (rs ++ [r]) = nonEmpty rs ++ nonEmpty [r] := by
  simp [nonEmpty]

end Delivery

/-- The packets are split into those popped, those ready to be popped and those still to
come, and the bytes added so far end within the first of these. -/
structure Progress (alloc : ℕ → Bool) (packets : List (List UInt8)) (fed : List UInt8)
    (s : StreamDataPacketCollector × List (List UInt8)) (ready todo : List (List UInt8))
    (x : List UInt8) : Prop where
  split : packets = nonEmpty s.2 ++ ready ++ todo
  fed_eq : fed = stream (nonEmpty s.2 ++ ready) ++ x
  underway : Underway alloc s.1 ready todo x

section Run
variable {alloc : ℕ → Bool} {packets ready todo : List (List UInt8)} {fed x : List UInt8}
  {s : StreamDataPacketCollector × List (List UInt8)}

theorem progress_init (hp : ∀ p ∈ packets, Sendable alloc p) :
    Progress alloc packets [] ({}, []) [] packets [] := by
  refine ⟨rfl, rfl, rfl, ?_⟩
  cases packets with
  | nil => exact .inl ⟨rfl, rfl⟩
  | cons p packets =>
    exact .inr ⟨p, packets, frame p, rfl, (List.nil_append _).symm,
      by simp [frame, (hp p (by simp)).nonempty]⟩

theorem Progress.sendable_todo (h : Progress alloc packets fed s ready todo x)
    (hp : ∀ p ∈ packets, Sendable alloc p) : ∀ p ∈ todo, Sendable alloc p := by
  intro p hmem
  apply hp
  rw [h.split]
  exact List.mem_append_right _ hmem

theorem Progress.add (h : Progress alloc packets fed s ready todo x)
    (hp : ∀ p ∈ packets, Sendable alloc p) {piece : List UInt8}
    (hfed : fed ++ piece <+: stream packets) :
    ∃ c' ready' todo' x', addData alloc s.1 piece = some c' ∧
      Progress alloc packets (fed ++ piece) (c', s.2) ready' todo' x' := by
  have hx : x ++ piece <+: stream todo := by
    rw [h.fed_eq, h.split, stream_append (nonEmpty s.2 ++ ready) todo, List.append_assoc] at hfed
    exact (List.prefix_append_right_inj _).mp hfed
  obtain ⟨c', more, todo', x', hadd, hsplit, hxeq, hunder⟩ :=
    h.underway.addData (h.sendable_todo hp) hx
  refine ⟨c', ready ++ more, todo', x', hadd, ?_, ?_, hunder⟩
  · rw [h.split, hsplit]
    simp
  · rw [h.fed_eq, List.append_assoc, hxeq]
    simp

theorem Progress.pop (h : Progress alloc packets fed s ready todo x)
    (hp : ∀ p ∈ packets, Sendable alloc p) :
    Progress alloc packets fed (s.1.popPacket.2, s.2 ++ [s.1.popPacket.1]) ready.tail todo x := by
  obtain ⟨-, hresult, hunder⟩ := h.underway.pop (h.sendable_todo hp)
  have hready : nonEmpty (s.2 ++ [s.1.popPacket.1]) ++ ready.tail = nonEmpty s.2 ++ ready := by
    rw [nonEmpty_append, hresult]
    cases ready with
    | nil => simp [nonEmpty]
    | cons p ready =>
      have hne : p ≠ [] := by
        refine (hp p ?_).nonempty
        rw [h.split]
        simp
      simp [nonEmpty, hne]
  refine ⟨?_, ?_, hunder⟩
  · rw [hready]
    exact h.split
  · rw [hready]
    exact h.fed_eq

theorem progress_run (hp : ∀ p ∈ packets, Sendable alloc p) {events : List CollectorEvent}
    (hfed : added events <+: stream packets) :
    ∃ s ready todo x, Runs.run (call alloc) ({}, []) events = some s ∧
      Progress alloc packets (added events) s ready todo x := by
  induction events using List.reverseRecOn with
  | nil => exact ⟨_, _, _, _, rfl, progress_init hp⟩
  | append_singleton events e ih =>
    rw [added_append] at hfed
    obtain ⟨s, ready, todo, x, hrun, hprogress⟩ :=
      ih ((List.prefix_append _ _).trans hfed)
    rw [Runs.run_snoc e hrun, added_append]
    cases e with
    | addData piece =>
      rw [show added [.addData piece] = piece by simp [added]] at hfed ⊢
      obtain ⟨c', ready', todo', x', hadd, hnext⟩ := hprogress.add hp hfed
      exact ⟨_, _, _, _, by simp [call, hadd], hnext⟩
    | popPacket =>
      rw [show added [.popPacket] = [] by simp [added], List.append_nil]
      exact ⟨_, _, _, _, rfl, hprogress.pop hp⟩

theorem Progress.todo_eq_nil (h : Progress alloc packets (stream packets) s ready todo x) :
    todo = [] := by
  have hx : stream todo = x := by
    have := h.fed_eq
    rw [h.split, stream_append] at this
    exact List.append_cancel_left this
  obtain ⟨htodo, -⟩ | ⟨p, rest, z, rfl, hframe, hz⟩ := h.underway.cut
  · exact htodo
  · have hlen := congrArg List.length hx
    have hzlen : 0 < z.length := List.length_pos_iff.mpr hz
    rw [stream_cons, hframe, List.length_append, List.length_append] at hlen
    omega

theorem Progress.drain (h : Progress alloc packets fed s ready todo x)
    (hp : ∀ p ∈ packets, Sendable alloc p) (n : ℕ) :
    ∃ s', Runs.run (call alloc) s (List.replicate n .popPacket) = some s' ∧
      Progress alloc packets fed s' (ready.drop n) todo x := by
  induction n generalizing s ready with
  | zero => exact ⟨s, rfl, h⟩
  | succ n ih =>
    obtain ⟨s', hrun, hprogress⟩ := ih (h.pop hp)
    refine ⟨s', hrun, ?_⟩
    rwa [List.drop_tail] at hprogress

end Run

theorem packets_delivered {alloc : ℕ → Bool} {packets : List (List UInt8)}
    {events : List CollectorEvent}
    (hpackets : ∀ p ∈ packets, p ≠ [] ∧ p.length < PacketSize.limit)
    (halloc : ∀ p ∈ packets, alloc p.length = true) (hfed : added events <+: stream packets) :
    ∃ c results, Runs.run (call alloc) ({}, []) events = some (c, results) ∧
      nonEmpty results ++ completedPackets c = completed packets (added events).length ∧
      c.popPacket.1 = (completedPackets c).headD [] ∧
      (added events = stream packets → ∃ c' results',
        Runs.run (call alloc) ({}, []) (events ++ List.replicate packets.length .popPacket) =
          some (c', results') ∧ nonEmpty results' = packets) := by
  have hp : ∀ p ∈ packets, Sendable alloc p := fun p hmem =>
    ⟨(hpackets p hmem).1, (hpackets p hmem).2, halloc p hmem⟩
  obtain ⟨⟨c, results⟩, ready, todo, x, hrun, hprogress⟩ := progress_run hp hfed
  obtain ⟨hready, hpop, -⟩ := hprogress.underway.pop (hprogress.sendable_todo hp)
  refine ⟨c, results, hrun, ?_, ?_, ?_⟩
  · have hnone := hprogress.underway.completed_eq_nil
    rw [hready, hprogress.fed_eq, List.length_append]
    conv_rhs => rw [hprogress.split]
    rw [completed_append, hnone, List.append_nil]
  · rw [hready]
    exact hpop
  · intro hall
    rw [hall] at hprogress
    obtain rfl := hprogress.todo_eq_nil
    obtain ⟨⟨c', results'⟩, hdrain, hdone⟩ := hprogress.drain hp packets.length
    refine ⟨c', results', ?_, ?_⟩
    · rw [Runs.run_append, hrun]
      exact hdrain
    · have hlen : ready.length ≤ packets.length := by
        rw [hprogress.split]
        simp only [List.length_append]
        omega
      have hsplit := hdone.split
      rw [List.drop_eq_nil_of_le hlen, List.append_nil, List.append_nil] at hsplit
      exact hsplit.symm

/-- Two packets, cut inside the first body, with a call of `PopPacket` that comes too
early. -/
theorem packets_delivered_two :
    ∃ c results, Runs.run (call fun _ => true) ({}, [])
        [.addData [2, 7], .popPacket, .addData [8, 1, 9], .popPacket] = some (c, results) ∧
      nonEmpty results ++ completedPackets c = completed [[7, 8], [9]] 5 ∧
      c.popPacket.1 = (completedPackets c).headD [] ∧
      ([2, 7, 8, 1, 9] = stream [[7, 8], [9]] → ∃ c' results',
        Runs.run (call fun _ => true) ({}, [])
          ([.addData [2, 7], .popPacket, .addData [8, 1, 9], .popPacket] ++
            List.replicate 2 .popPacket) = some (c', results') ∧
          nonEmpty results' = [[7, 8], [9]]) :=
  @packets_delivered (fun _ => true) [[7, 8], [9]]
    [.addData [2, 7], .popPacket, .addData [8, 1, 9], .popPacket]
    (by decide) (by decide) (by decide)

end AetherClient.StreamDataPacketCollector
