import AetherClient.SocketFrames
import AetherClient.PacketReception

set_option autoImplicit false

namespace AetherClient
open Runs StreamDataPacketCollector

inductive Recv where
  /-- `FIONREAD` announces `count` bytes, and `recv` returns `r` of them. -/
  | data (count r : ℕ)
  | error
deriving DecidableEq, Repr

def Recv.inFull : Recv → Bool
  | .data count r => count ≤ r
  | .error => true

structure TcpLink where
  queue : SocketPacketQueueManager := {}
  sent : List (List UInt8) := []
  unread : List UInt8 := []
  connected : Bool := true
  /-- For each socket event the buffers that the reader added to its collector. -/
  calls : List (List (List UInt8)) := []

inductive TcpEvent where
  | write (e : SocketEvent)
  | onSocketEvent (recvs : List Recv)
deriving DecidableEq, Repr

namespace TcpLink

/-- The loop of `ReadSocket`: the buffers that are added, what is left, and whether the socket is
still open. A buffer has the announced size, also when `recv` has filled only a part of it. -/
def readSocket (unread : List UInt8) : List Recv → List (List UInt8) × List UInt8 × Bool
  | [] => ([], unread, true)
  | .error :: _ => ([], unread, false)
  | .data count r :: recvs =>
    let count := min count unread.length
    let r := min r count
    if count = 0 then ([], unread, true)
    else if r = 0 then ([], unread, false)
    else
      let (pieces, rest) := readSocket (unread.drop r) recvs
      ((unread.take r ++ List.replicate (count - r) 0) :: pieces, rest)

def packetOf : SocketEvent → List (List UInt8)
  | .send data _ => [data]
  | _ => []

def step (l : TcpLink) : TcpEvent → Option TcpLink
  | .write e =>
    let queue := l.queue.handle e
    some { l with
      queue
      sent := l.sent ++ packetOf e
      unread := l.unread ++ queue.wire.drop l.queue.wire.length }
  | .onSocketEvent recvs =>
    if l.connected then
      let (pieces, unread, connected) := readSocket l.unread recvs
      some { l with unread, connected, calls := l.calls ++ [pieces] }
    else some l

def emitted (alloc : ℕ → Bool) (l : TcpLink) : Option (List (List UInt8)) :=
  (l.calls.foldlM (receive alloc) ({}, [])).map Prod.snd

/-- The queue does not go on behind an incomplete frame, packets are neither empty nor too long,
and what is announced is read. -/
def Orderly (alloc : ℕ → Bool) (l : TcpLink) : TcpEvent → Prop
  | .write e => ¬l.queue.GoesOn e ∧ ∀ data ∈ packetOf e,
      data ≠ [] ∧ data.length < PacketSize.limit ∧ alloc data.length = true
  | .onSocketEvent recvs => ∀ r ∈ recvs, r.inFull = true

instance (alloc : ℕ → Bool) (l : TcpLink) : DecidablePred (Orderly alloc l)
  | .write e => inferInstanceAs (Decidable (_ ∧ ∀ data ∈ packetOf e, _))
  | .onSocketEvent recvs => inferInstanceAs (Decidable (∀ r ∈ recvs, _))

structure Inv (alloc : ℕ → Bool) (l : TcpLink) : Prop where
  queue : l.queue.Inv
  frames : l.queue.packets.map UnixPacketSendAction.data = l.sent.map frame
  sendable : ∀ p ∈ l.sent, Sendable alloc p
  read : l.calls.flatten.flatten ++ l.unread = l.queue.wire

theorem flatten_readSocket {recvs : List Recv} (h : ∀ r ∈ recvs, r.inFull = true)
    (unread : List UInt8) :
    (readSocket unread recvs).1.flatten ++ (readSocket unread recvs).2.1 = unread := by
  induction recvs generalizing unread with
  | nil => rfl
  | cons recv recvs ih =>
    obtain ⟨hfull, hrest⟩ := List.forall_mem_cons.1 h
    cases recv with
    | error => rfl
    | data count r =>
      have hle : count ≤ r := of_decide_eq_true hfull
      have hr : min r (min count unread.length) = min count unread.length := by omega
      simp only [readSocket, hr, Nat.sub_self, List.replicate_zero, List.append_nil]
      split
      · rfl
      · rw [List.flatten_cons, List.append_assoc, ih hrest, List.take_append_drop]

theorem wire_isPrefix_handle (m : SocketPacketQueueManager) (e : SocketEvent) :
    m.wire <+: (m.handle e).wire := by
  cases e <;>
    simp only [SocketPacketQueueManager.handle, SocketPacketQueueManager.addPacket,
      SocketPacketQueueManager.modify] <;> split <;>
    first
    | exact List.prefix_rfl
    | exact List.prefix_append _ _

section Run
variable {alloc : ℕ → Bool} {l : TcpLink}

theorem Inv.step (h : Inv alloc l) {e : TcpEvent} (he : Orderly alloc l e) :
    ∃ l', l.step e = some l' ∧ Inv alloc l' := by
  cases e with
  | write e =>
    obtain ⟨hinv, hdata⟩ := h.queue.handle he.1
    refine ⟨_, rfl, hinv, ?_, ?_, ?_⟩
    · rw [hdata, h.frames, List.map_append]
      cases e <;> rfl
    · intro p hp
      obtain hp | hp := List.mem_append.1 hp
      · exact h.sendable p hp
      · obtain ⟨hne, hlt, halloc⟩ := he.2 p hp
        exact ⟨hne, hlt, halloc⟩
    · rw [← List.append_assoc, h.read]
      obtain ⟨more, hmore⟩ := wire_isPrefix_handle l.queue e
      rw [← hmore, List.drop_left]
  | onSocketEvent recvs =>
    simp only [TcpLink.step]
    split
    · refine ⟨_, rfl, h.queue, h.frames, h.sendable, ?_⟩
      rw [List.flatten_append, List.flatten_singleton, List.flatten_append, List.append_assoc,
        flatten_readSocket he, h.read]
    · exact ⟨l, rfl, h⟩

theorem Inv.emitted_eq (h : Inv alloc l) {packets : List (List UInt8)}
    (hsub : packets.Sublist l.sent) (hpre : l.queue.wire <+: stream packets) :
    l.emitted alloc = some (completed packets (l.queue.wire.length - l.unread.length)) := by
  have hread : l.calls.flatten.flatten <+: stream packets := List.IsPrefix.trans ⟨_, h.read⟩ hpre
  obtain ⟨c, hfold⟩ := receive_eq_completed (fun p hp => h.sendable p (hsub.subset hp)) hread
  have hlen := congrArg List.length h.read
  rw [List.length_append] at hlen
  rw [emitted, hfold, Option.map_some, ← hlen, Nat.add_sub_cancel]

theorem completed_concat_of_lt {ps : List (List UInt8)} {p : List UInt8} {n : ℕ}
    (h : n < (stream ps).length + (frame p).length) : completed (ps ++ [p]) n = completed ps n := by
  induction ps generalizing n with
  | nil =>
    have hlt : n < (frame p).length := by simpa [stream] using h
    simp only [List.nil_append, completed, if_neg (Nat.not_le.2 hlt)]
  | cons q ps ih =>
    rw [List.cons_append, completed, completed]
    split
    · rw [ih]
      rw [stream_cons, List.length_append] at h
      omega
    · rfl

/-- The wire carries whole frames of some of the packets, in order, and a part of one at the end,
and these packets come out as far as the wire was read. -/
def Delivers (alloc : ℕ → Bool) (l : TcpLink) : Prop :=
  ∃ delivered rest, l.queue.wire = stream delivered ++ rest ∧
    (rest = [] ∧ delivered.Sublist l.sent ∨ ∃ last, (delivered ++ [last]).Sublist l.sent ∧
      rest <+: frame last ∧ rest ≠ frame last) ∧
    l.emitted alloc = some (completed delivered (l.queue.wire.length - l.unread.length))

theorem Inv.delivers (h : Inv alloc l) : Delivers alloc l := by
  have hwhole : WholeFrames (l.sent.map frame) l.queue.wire := by
    rw [h.queue.wire, ← h.frames]
    exact SocketPacketQueueManager.wholeFrames_of_tidy
      (fun p hp => (h.queue.orderly.coherent p hp).le) h.queue.orderly.tidy
  obtain ⟨whole, rest, hsplit, ⟨rfl, hsub⟩ | ⟨last, hsub, hrest, hne⟩⟩ := hwhole
  · obtain ⟨delivered, hdelivered, rfl⟩ := List.sublist_map_iff.1 hsub
    refine ⟨delivered, [], hsplit, .inl ⟨rfl, hdelivered⟩, h.emitted_eq hdelivered ?_⟩
    rw [hsplit, List.append_nil]
    exact List.prefix_rfl
  · obtain ⟨all, hall, heq⟩ := List.sublist_map_iff.1 hsub
    obtain ⟨delivered, tail, rfl, rfl, htail⟩ := List.append_eq_map_iff.1 heq
    obtain ⟨p, rfl, rfl⟩ := List.map_eq_singleton_iff.1 htail
    refine ⟨delivered, rest, hsplit, .inr ⟨p, hall, hrest, hne⟩, ?_⟩
    have hstream : stream (delivered ++ [p]) = stream delivered ++ frame p := by
      rw [stream_append]
      simp [stream]
    rw [h.emitted_eq hall, completed_concat_of_lt]
    · have hlt : rest.length < (frame p).length :=
        lt_of_le_of_ne hrest.length_le fun hlen => hne (hrest.eq_of_length hlen)
      rw [hsplit, List.length_append]
      exact lt_of_le_of_lt (Nat.sub_le _ _) (Nat.add_lt_add_left hlt _)
    · rw [hsplit, hstream]
      exact (List.prefix_append_right_inj _).2 hrest

end Run

/-- Whatever the pieces are in which the bytes are written and read, in every orderly run the
packets whose frames the wire carries come out, in order and with their last byte. -/
theorem run_delivers (alloc : ℕ → Bool) (events : List TcpEvent)
    (ha : Along step (Orderly alloc) {} events) :
    ∃ l, run step {} events = some l ∧ Delivers alloc l := by
  obtain ⟨l, hrun, h⟩ := run_invariant (I := Inv alloc) (fun l e h he => h.step he)
    ⟨SocketPacketQueueManager.inv_initial, rfl, fun _ hp => absurd hp List.not_mem_nil, rfl⟩ ha
  exact ⟨l, hrun, h.delivers⟩

def pieces : List TcpEvent :=
  [.write (.send [7, 8] [.accepted 1]), .write (.send [9] []), .write (.send [5] []),
    .write (.stop 1), .onSocketEvent [.data 1 1],
    .write (.writeSocket [.accepted 2, .accepted 2]), .onSocketEvent [.data 3 3, .data 1 1]]

theorem run_delivers_pieces : ∃ l, run step {} pieces = some l ∧ Delivers (fun _ => true) l :=
  run_delivers (fun _ => true) pieces (by decide)

end TcpLink
end AetherClient
