import AetherClient.PacketDelivery

set_option autoImplicit false

namespace AetherClient.StreamDataPacketCollector

/-- The loop that pops packets and passes them on, for so many turns. It ends with the first empty
packet. -/
def popLoop : ℕ → StreamDataPacketCollector × List (List UInt8) →
    Option (StreamDataPacketCollector × List (List UInt8))
  | 0, _ => none
  | turns + 1, (c, emitted) =>
    let (data, c) := c.popPacket
    if data.isEmpty then some (c, emitted) else popLoop turns (c, emitted ++ [data])

/-- Some buffers have arrived. Every turn of the loop but the last one takes a packet away. -/
def receive (alloc : ℕ → Bool) (s : StreamDataPacketCollector × List (List UInt8))
    (pieces : List (List UInt8)) : Option (StreamDataPacketCollector × List (List UInt8)) :=
  (pieces.foldlM (addData alloc) s.1).bind fun c => popLoop (c.packets.length + 1) (c, s.2)

section Reception
variable {alloc : ℕ → Bool} {packets ready todo : List (List UInt8)} {fed x : List UInt8}
  {s : StreamDataPacketCollector × List (List UInt8)}

theorem Progress.popLoop (h : Progress alloc packets fed s ready todo x)
    (hp : ∀ p ∈ packets, Sendable alloc p) (hs : [] ∉ s.2) {turns : ℕ}
    (hturns : ready.length < turns) :
    ∃ s', popLoop turns s = some s' ∧ [] ∉ s'.2 ∧ Progress alloc packets fed s' [] todo x := by
  induction ready generalizing s turns with
  | nil =>
    obtain ⟨n, rfl⟩ := Nat.exists_eq_add_of_lt hturns
    obtain ⟨-, hfirst, hunder⟩ := h.underway.pop (h.sendable_todo hp)
    have hempty : s.1.popPacket.1 = [] := hfirst
    exact ⟨(s.1.popPacket.2, s.2), by simp [StreamDataPacketCollector.popLoop, hempty], hs,
      h.split, h.fed_eq, hunder⟩
  | cons p ready ih =>
    obtain ⟨n, rfl⟩ := Nat.exists_eq_add_of_lt hturns
    obtain ⟨-, hfirst, -⟩ := h.underway.pop (h.sendable_todo hp)
    have hfirst : s.1.popPacket.1 = p := hfirst
    have hne : p ≠ [] := by
      refine (hp p ?_).nonempty
      rw [h.split]
      simp
    have hnext := h.pop hp
    rw [hfirst] at hnext
    obtain ⟨s', hloop, hdone⟩ := ih hnext (by simpa [hne.symm] using hs)
      (show ready.length < ready.length + 1 + n by omega)
    refine ⟨s', ?_, hdone⟩
    simpa [StreamDataPacketCollector.popLoop, hfirst, hne] using hloop

theorem Progress.length_ready_lt (h : Progress alloc packets fed s ready todo x)
    (hp : ∀ p ∈ packets, Sendable alloc p) : ready.length < s.1.packets.length + 1 := by
  obtain ⟨hcompleted, -, -⟩ := h.underway.pop (h.sendable_todo hp)
  have hlen := congrArg List.length hcompleted
  rw [completedPackets, List.length_map] at hlen
  have hle := List.length_filter_le isPacketComplete s.1.packets
  omega

theorem Progress.addAll (h : Progress alloc packets fed s ready todo x)
    (hp : ∀ p ∈ packets, Sendable alloc p) {pieces : List (List UInt8)}
    (hpieces : fed ++ pieces.flatten <+: stream packets) :
    ∃ c ready' todo' x', pieces.foldlM (addData alloc) s.1 = some c ∧
      Progress alloc packets (fed ++ pieces.flatten) (c, s.2) ready' todo' x' := by
  induction pieces generalizing fed s ready todo x with
  | nil => exact ⟨s.1, ready, todo, x, rfl, by simpa using h⟩
  | cons piece pieces ih =>
    rw [List.flatten_cons, ← List.append_assoc] at hpieces ⊢
    obtain ⟨c, ready', todo', x', hadd, hnext⟩ :=
      h.add hp ((List.prefix_append _ _).trans hpieces)
    rw [List.foldlM_cons, hadd]
    exact ih hnext hpieces

theorem receive_eq_completed (hp : ∀ p ∈ packets, Sendable alloc p)
    {calls : List (List (List UInt8))} (hcalls : calls.flatten.flatten <+: stream packets) :
    ∃ c, calls.foldlM (receive alloc) ({}, []) =
      some (c, completed packets calls.flatten.flatten.length) := by
  suffices hrun : ∃ s todo x, calls.foldlM (receive alloc) ({}, []) = some s ∧ [] ∉ s.2 ∧
      Progress alloc packets calls.flatten.flatten s [] todo x by
    obtain ⟨s, todo, x, hfold, hs, hprogress⟩ := hrun
    have hall : nonEmpty s.2 = s.2 :=
      List.filter_eq_self.2 fun p hmem => decide_eq_true fun hnil => hs (hnil ▸ hmem)
    have hnone := hprogress.underway.completed_eq_nil
    have hsplit := hprogress.split
    have hfed := hprogress.fed_eq
    rw [hall, List.append_nil] at hsplit hfed
    refine ⟨s.1, hfold.trans ?_⟩
    rw [hfed, List.length_append, hsplit, completed_append, hnone, List.append_nil]
  induction calls using List.reverseRecOn with
  | nil => exact ⟨_, _, _, rfl, List.not_mem_nil, progress_init hp⟩
  | append_singleton calls pieces ih =>
    rw [List.flatten_append, List.flatten_singleton, List.flatten_append] at hcalls ⊢
    obtain ⟨s, todo, x, hfold, hs, hprogress⟩ := ih ((List.prefix_append _ _).trans hcalls)
    obtain ⟨c, ready, todo', x', hadd, hready⟩ := hprogress.addAll hp hcalls
    obtain ⟨s', hpop, hs', hnext⟩ := hready.popLoop hp hs (hready.length_ready_lt hp)
    refine ⟨s', todo', x', ?_, hs', hnext⟩
    simp only [List.foldlM_append, hfold, List.foldlM_cons, List.foldlM_nil, bind_pure,
      Option.bind_eq_bind, Option.bind_some, receive, hadd, hpop]

end Reception

theorem take_isPrefix_completed {packets : List (List UInt8)} {n k : ℕ}
    (h : (stream (packets.take n)).length ≤ k) : packets.take n <+: completed packets k := by
  obtain ⟨m, rfl⟩ := Nat.exists_eq_add_of_le h
  nth_rewrite 2 [← List.take_append_drop n packets]
  rw [completed_append]
  exact List.prefix_append _ _

end AetherClient.StreamDataPacketCollector
