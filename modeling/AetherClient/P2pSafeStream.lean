import AetherClient.SafeStreamReports
import AetherClient.PacketReception

set_option autoImplicit false

namespace AetherClient
open Runs StreamDataPacketCollector

namespace P2pSafeStream

def below : LinkEvent → LinkEvent
  | .write side data => .write side (frame data)
  | e => e

def step (config : SafeStreamConfig) (l : Link) (e : LinkEvent) : Option Link :=
  l.step config (below e)

/-- The messages that come out for the buffers that the safe stream hands over. The handler of
`LinkOut` adds each buffer to the collector and pops the packets. -/
def outData (alloc : ℕ → Bool) (received : List DataBuffer) : Option (List DataBuffer) :=
  ((received.map fun buffer => [buffer]).foldlM (receive alloc) ({}, [])).map Prod.snd

def IsMessage (alloc : ℕ → Bool) : LinkEvent → Prop
  | .write _ data => data ≠ [] ∧ data.length < PacketSize.limit ∧ alloc data.length = true
  | _ => True

instance (alloc : ℕ → Bool) : DecidablePred (IsMessage alloc)
  | .write _ _ => inferInstanceAs (Decidable (_ ∧ _ ∧ _))
  | .setMaxDataSize _ _ | .updateSending _ _ | .updateReceiving _ _ | .updateAction _ _
  | .deliver _ | .lose _ _ => .isTrue trivial

section Written
variable {config : SafeStreamConfig} {alloc : ℕ → Bool} {l l' : Link}

theorem accepted_step {e : LinkEvent} (h : l.step config e = some l') (side : Side) :
    (l' side).accepted = (l side).accepted ∨
      ∃ data, e = .write side data ∧ (l' side).accepted = (l side).accepted ++ [data] := by
  have hsame {s : Side} {p : Party} (hl : l.modify s p = l')
      (hp : p.accepted = (l s).accepted) : (l' side).accepted = (l side).accepted := by
    subst hl
    by_cases hs : side = s
    · subst hs
      rw [Link.modify_self, hp]
    · rw [Link.modify, if_neg hs]
  cases e with
  | write s data =>
    simp only [Link.step, Option.some.injEq] at h
    split at h
    · exact .inl (by rw [h])
    · subst h
      by_cases hs : side = s
      · subst hs
        exact .inr ⟨data, rfl, by rw [Link.modify_self]⟩
      · exact .inl (by rw [Link.modify, if_neg hs])
  | setMaxDataSize | updateReceiving | updateAction | lose =>
    exact .inl (hsame (Option.some.inj h) rfl)
  | updateSending s t =>
    obtain ⟨res, -, hl⟩ := Option.map_eq_some_iff.1 h
    exact .inl (hsame hl rfl)
  | deliver s =>
    simp only [Link.step] at h
    split at h
    · exact .inl (by rw [Option.some.inj h])
    · obtain ⟨stream, -, rfl⟩ := Option.map_eq_some_iff.1 h
      cases side <;> cases s <;> exact .inl rfl

def Framed (alloc : ℕ → Bool) (l : Link) : Prop :=
  ∀ side, ∃ written : List DataBuffer,
    (l side).accepted = written.map frame ∧ ∀ p ∈ written, Sendable alloc p

theorem Framed.step (h : Framed alloc l) {e : LinkEvent} (he : IsMessage alloc e)
    (hs : step config l e = some l') : Framed alloc l' := by
  intro side
  obtain ⟨written, hwritten, hsendable⟩ := h side
  obtain hsame | ⟨data, hwrite, hmore⟩ := accepted_step hs side
  · exact ⟨written, hsame.trans hwritten, hsendable⟩
  cases e with
  | write s message =>
    cases hwrite
    refine ⟨written ++ [message], by rw [hmore, hwritten, List.map_append]; rfl, ?_⟩
    exact List.forall_mem_append.2
      ⟨hsendable, List.forall_mem_singleton.2 ⟨he.1, he.2.1, he.2.2⟩⟩
  | setMaxDataSize | updateSending | updateReceiving | updateAction | deliver | lose =>
    cases hwrite

theorem run_framed {I : Link → Prop} {P : Link → LinkEvent → Prop} {events : List LinkEvent}
    (hstep : ∀ l e, I l → P l e → ∃ l', l.step config e = some l' ∧ I l') (hinit : I Link.init)
    (ha : Along (step config) (fun l e => IsMessage alloc e ∧ P l (below e)) Link.init events) :
    ∃ l, run (step config) Link.init events = some l ∧ I l ∧ Framed alloc l := by
  refine run_invariant (I := fun l => I l ∧ Framed alloc l) (fun l e h he => ?_)
    ⟨hinit, fun _ => ⟨[], rfl, fun _ hp => absurd hp List.not_mem_nil⟩⟩ ha
  obtain ⟨l', hs, hnext⟩ := hstep l (below e) h.1 he.2
  exact ⟨l', hs, hnext, h.2.step he.1 hs⟩

def Carries (alloc : ℕ → Bool) (l : Link) (side : Side) (written emitted : List DataBuffer) : Prop :=
  (l side).accepted = written.map frame ∧ outData alloc (l side.peer).received = some emitted

theorem Framed.carries (h : Framed alloc l) (hflow : Link.Both Flow l) (side : Side) :
    ∃ written, Carries alloc l side written
      (completed written (l side.peer).received.flatten.length) := by
  obtain ⟨written, haccepted, hsendable⟩ := h side
  refine ⟨written, haccepted, ?_⟩
  have hpieces : ((l side.peer).received.map fun buffer => [buffer]).flatten =
      (l side.peer).received := by rw [← List.flatMap_def, List.flatMap_singleton']
  have hpre : (l side.peer).received.flatten <+: stream written := by
    rw [(hflow side).receiver.received_eq, haccepted]
    exact List.take_prefix _ _
  rw [← hpieces] at hpre
  obtain ⟨c, hfold⟩ := receive_eq_completed hsendable hpre
  rw [outData, hfold, hpieces, Option.map_some]

end Written

def firstMessage : List LinkEvent :=
  [.setMaxDataSize .left 4, .write .left [7], .write .left [8, 9], .updateSending .left 0,
    .deliver .left, .updateReceiving .right 1, .deliver .right, .updateAction .left 0]

end P2pSafeStream
end AetherClient
