import AetherClient.BufferGate
import AetherClient.Tables
import Mathlib.Logic.Relation

set_option autoImplicit false

namespace AetherClient
def BufferGateFrame.returns : BufferGateFrame → Bool
  | .callback | .pinned _ => true
  | .updated | .finishing _ | .removed | .sending _ => false

def WriteAnswer.data {Data : Type} : WriteAnswer Data → Data
  | .accepted data | .refused data _ => data

def BufferGateEvent.written {Data : Type} : BufferGateEvent Data → Option Data
  | .write data => some data
  | .linkOut | .update _ | .finish _ | .ret => none

namespace BufferGate
variable {Data : Type}

/-- A part of a step. The end of a write of the out gate and the call of the out gate in `Send` are
not among them. -/
inductive Quiet (w : BufferGate Data) : BufferGate Data → Prop
  | call (f : BufferGateFrame) (hf : f.action = none) (hl : f.returns = true ∨ w.linkedOut = true)
      (hw : ∀ id, f = .pinned id → ∃ a ∈ w.writeInBuffer, a.id = id) : Quiet w { w with frames := f :: w.frames }
  | ret (f : BufferGateFrame) (rest : List BufferGateFrame) (h : w.frames = f :: rest)
      (hf : f.action = none) : Quiet w { w with frames := rest }
  | refuse (data : Data) (hsoft : w.streamInfo.isSoftWritable = false) :
      Quiet w { w with answers := w.answers ++ [.refused data w.writeInBuffer.length] }
  | enqueue (data : Data) (hsoft : w.streamInfo.isSoftWritable = true) :
      Quiet w { w with
        answers := w.answers ++ [.accepted data], fresh := w.fresh + 1
        streamInfo := { w.streamInfo with
          isSoftWritable := decide (w.writeInBuffer.length + 1 ≠ w.bufferMax) }
        writeInBuffer := w.writeInBuffer ++ [{ id := w.fresh, data := data }] }
  | passOn (data : Data) (hempty : w.writeInBuffer = []) :
      Quiet w { w with answers := w.answers ++ [.accepted data], handed := w.handed ++ [data] }
  | link : Quiet w { w with linkedOut := true }
  | inform (info : StreamInfo) (hl : w.linkedOut = true) :
      Quiet w { w with
        streamInfo := { w.streamInfo with
          isLinked := info.isLinked, maxElementSize := info.maxElementSize
          isWriteble := info.isWriteble }
        lastOutStreamInfo := info }
  | subscribe (id : ℕ) (rest : List BufferGateFrame) (h : w.frames = .sending id :: rest) :
      Quiet w ({ w with frames := rest }.modify id fun a => { a with subscribed := true })
  | remove (id : ℕ) (rest : List BufferGateFrame) (h : w.frames = .finishing id :: rest) :
      Quiet w { w with
        frames := rest, writeInBuffer := w.writeInBuffer.filter fun a => a.id ≠ id
        streamInfo := { w.streamInfo with isSoftWritable := true } }

/-- What keeps the iterators valid and the writes in order, whatever the writes are finished by. -/
structure Sound (w : BufferGate Data) : Prop where
  ids : (w.writeInBuffer.map BufferedWriteAction.id).Nodup
  below : ∀ a ∈ w.writeInBuffer, a.id < w.fresh
  sentFirst : w.writeInBuffer.Pairwise fun a b => b.isSent → a.isSent
  subscribed : ∀ a ∈ w.writeInBuffer, a.subscribed → a.isSent
  busy : (w.frames.filterMap BufferGateFrame.action).Nodup
  held : ∀ f ∈ w.frames, ∀ id, f.action = some id →
    ∃ a ∈ w.writeInBuffer, a.id = id ∧ (f = .sending id → a.isSent)
  /-- What is used when a call returns is not about to be removed before. -/
  pinned : ∀ l id r, w.frames = l ++ .pinned id :: r →
    (∃ a ∈ w.writeInBuffer, a.id = id) ∧ .finishing id ∉ l
  unlinked : w.linkedOut = false → w.lastOutStreamInfo.isWriteble = false ∧
    (∀ f ∈ w.frames, f.returns = true) ∧ ∀ a ∈ w.writeInBuffer, ¬a.isSent

section Sound
variable {w w' : BufferGate Data} {a : BufferedWriteAction Data} {id : ℕ} {f : BufferGateFrame}
  {rest : List BufferGateFrame}

theorem sound_initial (bufferMax : ℕ) : Sound ({ bufferMax := bufferMax } : BufferGate Data) where
  ids := List.nodup_nil
  below := List.forall_mem_nil _
  sentFirst := List.Pairwise.nil
  subscribed := List.forall_mem_nil _
  busy := List.nodup_nil
  held := List.forall_mem_nil _
  pinned l id r h := by cases l <;> cases h
  unlinked := fun _ => ⟨rfl, List.forall_mem_nil _, List.forall_mem_nil _⟩

theorem Sound.linked_of_sent (hw : Sound w) (ha : a ∈ w.writeInBuffer) (hs : a.isSent) :
    w.linkedOut = true := by
  by_contra hl
  exact (hw.unlinked (eq_false_of_ne_true hl)).2.2 a ha hs

theorem Sound.linked_of_writeble (hw : Sound w) (h : w.lastOutStreamInfo.isWriteble = true) :
    w.linkedOut = true := by
  by_contra hl
  have hno := (hw.unlinked (eq_false_of_ne_true hl)).1
  rw [h] at hno
  cases hno

theorem Sound.linked_of_frame (hw : Sound w) (hf : f ∈ w.frames) (hc : f.returns = false) :
    w.linkedOut = true := by
  by_contra hl
  have hreturns := (hw.unlinked (eq_false_of_ne_true hl)).2.1 f hf
  rw [hc] at hreturns
  cases hreturns

theorem Sound.eq_of_id (hw : Sound w) {b : BufferedWriteAction Data} (ha : a ∈ w.writeInBuffer)
    (hb : b ∈ w.writeInBuffer) (h : a.id = b.id) : a = b :=
  List.inj_on_of_nodup_map hw.ids ha hb h

theorem mem_busy (hf : f ∈ w.frames) (hid : f.action = some id) :
    id ∈ w.frames.filterMap BufferGateFrame.action :=
  List.mem_filterMap.mpr ⟨f, hf, hid⟩

theorem busy_cons_of_none (hf : f.action = none) : (f :: rest).filterMap BufferGateFrame.action =
    rest.filterMap BufferGateFrame.action := List.filterMap_cons_none hf

theorem Sound.returning (hw : Sound w) (h : w.frames = f :: rest) (hid : f.action = some id) :
    id ∉ rest.filterMap BufferGateFrame.action ∧
      ∃ a ∈ w.writeInBuffer, a.id = id ∧ (f = .sending id → a.isSent) := by
  have hbusy := hw.busy
  rw [h, List.filterMap_cons_some hid] at hbusy
  exact ⟨(List.nodup_cons.mp hbusy).1, hw.held f (h ▸ List.mem_cons_self) id hid⟩

theorem Sound.busy_of_rest (hw : Sound w) (h : w.frames = f :: rest) (hid : f.action = some id) {i : ℕ}
    (hi : i ∈ rest.filterMap BufferGateFrame.action) :
    i ∈ w.frames.filterMap BufferGateFrame.action ∧ i ≠ id := by
  constructor
  · rw [h, List.filterMap_cons_some hid]
    exact List.mem_cons_of_mem _ hi
  · rintro rfl
    exact (hw.returning h hid).1 hi

theorem Sound.ret (hw : Sound w) (h : w.frames = f :: rest) : Sound { w with frames := rest } := by
  have hsub : (rest.filterMap BufferGateFrame.action).Sublist
      (w.frames.filterMap BufferGateFrame.action) := by
    rw [h]
    exact (List.sublist_cons_self f rest).filterMap _
  exact { hw with
    busy := hw.busy.sublist hsub
    held := fun g hg => hw.held g (h ▸ List.mem_cons_of_mem f hg)
    pinned := by
      rintro l id r rfl
      exact (hw.pinned (f :: l) id r h).imp_right fun hno hfin => hno (List.mem_cons_of_mem f hfin)
    unlinked := by
      intro hl
      obtain ⟨hwr, hfr, hs⟩ := hw.unlinked hl
      exact ⟨hwr, fun g hg => hfr g (h ▸ List.mem_cons_of_mem f hg), hs⟩ }

theorem Sound.call (hw : Sound w) (hf : f.returns = true ∨ w.linkedOut = true)
    (ha : ∀ id, f.action = some id → id ∉ w.frames.filterMap BufferGateFrame.action ∧
      ∃ a ∈ w.writeInBuffer, a.id = id ∧ (f = .sending id → a.isSent))
    (hpinned : ∀ id, f = .pinned id → ∃ a ∈ w.writeInBuffer, a.id = id)
    (hfinishing : ∀ id, f = .finishing id → .pinned id ∉ w.frames) :
    Sound { w with frames := f :: w.frames } := by
  refine { hw with busy := ?_, held := ?_, pinned := ?_, unlinked := ?_ }
  · cases hact : f.action with
    | none =>
      rw [List.filterMap_cons_none hact]
      exact hw.busy
    | some id =>
      rw [List.filterMap_cons_some hact]
      exact List.nodup_cons.mpr ⟨(ha id hact).1, hw.busy⟩
  · intro g hg id hid
    obtain rfl | hg := List.mem_cons.mp hg
    · exact (ha id hid).2
    · exact hw.held g hg id hid
  · intro l id r h
    cases l with
    | nil => exact ⟨hpinned id (List.cons.inj h).1, List.not_mem_nil⟩
    | cons g l =>
      obtain ⟨rfl, hrest⟩ := List.cons.inj h
      refine (hw.pinned l id r hrest).imp_right fun hno hfin => ?_
      obtain hnew | hfin := List.mem_cons.mp hfin
      · exact hfinishing id hnew.symm (hrest ▸ List.mem_append_right l List.mem_cons_self)
      · exact hno hfin
  · intro hl
    obtain ⟨hwr, hfr, hs⟩ := hw.unlinked hl
    refine ⟨hwr, ?_, hs⟩
    intro g hg
    obtain rfl | hg := List.mem_cons.mp hg
    · obtain hc | hl' := hf
      · exact hc
      · rw [show w.linkedOut = false from hl] at hl'
        cases hl'
    · exact hfr g hg

theorem mem_modify {f : BufferedWriteAction Data → BufferedWriteAction Data}
    {b : BufferedWriteAction Data} (hb : b ∈ (w.modify id f).writeInBuffer) :
    ∃ a ∈ w.writeInBuffer, (a.id = id ∧ f a = b) ∨ (a.id ≠ id ∧ a = b) := by
  obtain ⟨a, ha, rfl⟩ := List.mem_map.mp hb
  refine ⟨a, ha, ?_⟩
  by_cases h : a.id = id
  · exact .inl ⟨h, (if_pos h).symm⟩
  · exact .inr ⟨h, (if_neg h).symm⟩

section Subscribe
variable (w) (id) (value : Bool)

theorem map_subscribe {β : Type} (g : BufferedWriteAction Data → β)
    (hg : ∀ a : BufferedWriteAction Data, g { a with subscribed := value } = g a) :
    (w.modify id fun a => { a with subscribed := value }).writeInBuffer.map g =
      w.writeInBuffer.map g := by
  rw [modify, List.map_map]
  apply List.map_congr_left
  intro a _
  simp only [Function.comp]
  split
  · exact hg a
  · rfl

theorem waiting_subscribe :
    (w.modify id fun a => { a with subscribed := value }).waiting = w.waiting := by
  have hpairs := w.map_subscribe id value (fun a => (a.isSent, a.data)) fun _ => rfl
  have hwaiting : ∀ l : List (BufferedWriteAction Data),
      (l.filter fun a => !a.isSent).map BufferedWriteAction.data =
        ((l.map fun a => (a.isSent, a.data)).filter fun p => !p.1).map Prod.snd := by
    intro l
    rw [List.filter_map, List.map_map]
    rfl
  rw [waiting, waiting, hwaiting, hwaiting, hpairs]

variable {w id value}

theorem mem_subscribe {b : BufferedWriteAction Data}
    (hb : b ∈ (w.modify id fun a => { a with subscribed := value }).writeInBuffer) :
    ∃ a ∈ w.writeInBuffer, b.id = a.id ∧ b.isSent = a.isSent ∧
      (b.subscribed = if a.id = id then value else a.subscribed) := by
  obtain ⟨a, ha, ⟨hid, rfl⟩ | ⟨hid, rfl⟩⟩ := mem_modify hb
  · exact ⟨a, ha, rfl, rfl, (if_pos hid).symm⟩
  · exact ⟨a, ha, rfl, rfl, (if_neg hid).symm⟩

theorem mem_subscribe_of_mem (ha : a ∈ w.writeInBuffer) :
    ∃ b ∈ (w.modify id fun a => { a with subscribed := value }).writeInBuffer,
      b.id = a.id ∧ b.isSent = a.isSent ∧
      (b.subscribed = if a.id = id then value else a.subscribed) := by
  refine ⟨_, List.mem_map_of_mem ha, ?_⟩
  beta_reduce
  split <;> exact ⟨rfl, rfl, rfl⟩

theorem Sound.modify_subscribed (hw : Sound w) (hs : ∀ a ∈ w.writeInBuffer, a.id = id → a.isSent) :
    Sound (w.modify id fun a => { a with subscribed := value }) := by
  constructor
  case ids =>
    rw [map_subscribe w id value BufferedWriteAction.id fun _ => rfl]
    exact hw.ids
  case below =>
    intro b hb
    obtain ⟨a, ha, hid, -⟩ := mem_subscribe hb
    rw [hid]
    exact hw.below a ha
  case sentFirst =>
    have hsent := w.map_subscribe id value BufferedWriteAction.isSent fun _ => rfl
    have hpair : ∀ l : List (BufferedWriteAction Data), (l.Pairwise fun a b => b.isSent → a.isSent) ↔
        (l.map BufferedWriteAction.isSent).Pairwise fun x y => y = true → x = true := fun _ =>
      (List.pairwise_map (f := BufferedWriteAction.isSent) (R := fun x y => y = true → x = true)).symm
    rw [hpair, hsent, ← hpair]
    exact hw.sentFirst
  case subscribed =>
    intro b hb hsub
    obtain ⟨a, ha, -, hsent, hvalue⟩ := mem_subscribe hb
    rw [hsent]
    rw [hvalue] at hsub
    split at hsub
    · next hid => exact hs a ha hid
    · exact hw.subscribed a ha hsub
  case busy => exact hw.busy
  case held =>
    intro g hg i hi
    obtain ⟨a, ha, rfl, hsent⟩ := hw.held g hg i hi
    obtain ⟨b, hb, hid, hsame, -⟩ := mem_subscribe_of_mem ha
    exact ⟨b, hb, hid, fun hg => hsame ▸ hsent hg⟩
  case pinned =>
    intro l i r h
    obtain ⟨⟨a, ha, rfl⟩, hno⟩ := hw.pinned l i r h
    obtain ⟨b, hb, hid, -⟩ := mem_subscribe_of_mem ha
    exact ⟨⟨b, hb, hid⟩, hno⟩
  case unlinked =>
    intro hl
    obtain ⟨hwr, hfr, hnone⟩ := hw.unlinked hl
    refine ⟨hwr, hfr, ?_⟩
    intro b hb
    obtain ⟨a, ha, -, hsent, -⟩ := mem_subscribe hb
    rw [hsent]
    exact hnone a ha

end Subscribe

theorem Sound.enqueue (hw : Sound w) (data : Data) (info : StreamInfo)
    (answers : List (WriteAnswer Data)) : Sound { w with
      answers := answers, fresh := w.fresh + 1, streamInfo := info
      writeInBuffer := w.writeInBuffer ++ [{ id := w.fresh, data := data }] } := by
  have hmem : ∀ b ∈ w.writeInBuffer ++ [({ id := w.fresh, data := data } : BufferedWriteAction Data)],
      b ∈ w.writeInBuffer ∨ b = { id := w.fresh, data := data } := by
    intro b hb
    simpa using hb
  constructor
  case ids => exact Tables.nodup_concat hw.ids fun b hb => Nat.ne_of_lt (hw.below b hb)
  case below =>
    intro b hb
    show b.id < w.fresh + 1
    obtain hb | rfl := hmem b hb
    · have := hw.below b hb
      omega
    · exact Nat.lt_succ_self _
  case sentFirst =>
    show (w.writeInBuffer ++ [_]).Pairwise _
    rw [List.pairwise_append]
    refine ⟨hw.sentFirst, List.pairwise_singleton _ _, ?_⟩
    intro b _ c hc hs
    rw [List.mem_singleton.mp hc] at hs
    cases hs
  case subscribed =>
    intro b hb hs
    obtain hb | rfl := hmem b hb
    · exact hw.subscribed b hb hs
    · cases hs
  case busy => exact hw.busy
  case held =>
    intro g hg i hi
    obtain ⟨b, hb, h⟩ := hw.held g hg i hi
    exact ⟨b, List.mem_append_left _ hb, h⟩
  case pinned =>
    intro l i r h
    exact (hw.pinned l i r h).imp_left fun ⟨b, hb, h⟩ => ⟨b, List.mem_append_left _ hb, h⟩
  case unlinked =>
    intro hl
    obtain ⟨hwr, hfr, hnone⟩ := hw.unlinked hl
    refine ⟨hwr, hfr, ?_⟩
    intro b hb
    obtain hb | rfl := hmem b hb
    · exact hnone b hb
    · exact Bool.false_ne_true

theorem Sound.remove (hw : Sound w) (info : StreamInfo)
    (hfree : id ∉ w.frames.filterMap BufferGateFrame.action) (hunpinned : .pinned id ∉ w.frames) :
    Sound { w with
      writeInBuffer := w.writeInBuffer.filter fun a => a.id ≠ id, streamInfo := info } := by
  have hsub : (w.writeInBuffer.filter fun a => a.id ≠ id).Sublist w.writeInBuffer :=
    List.filter_sublist
  exact { hw with
    ids := hw.ids.sublist (hsub.map _)
    below := fun b hb => hw.below b (hsub.subset hb)
    sentFirst := hw.sentFirst.sublist hsub
    subscribed := fun b hb => hw.subscribed b (hsub.subset hb)
    held := by
      intro g hg i hi
      obtain ⟨b, hb, rfl, h⟩ := hw.held g hg i hi
      have hne : b.id ≠ id := fun he => hfree (he ▸ mem_busy hg hi)
      exact ⟨b, List.mem_filter.mpr ⟨hb, decide_eq_true hne⟩, rfl, h⟩
    pinned := by
      intro l i r h
      obtain ⟨⟨b, hb, rfl⟩, hno⟩ := hw.pinned l i r h
      have hne : b.id ≠ id := fun he =>
        hunpinned (he ▸ h ▸ List.mem_append_right l List.mem_cons_self)
      exact ⟨⟨b, List.mem_filter.mpr ⟨hb, decide_eq_true hne⟩, rfl⟩, hno⟩
    unlinked := by
      intro hl
      obtain ⟨hwr, hfr, hnone⟩ := hw.unlinked hl
      exact ⟨hwr, hfr, fun b hb => hnone b (hsub.subset hb)⟩ }

theorem writeInBuffer_send (hw : Sound w) {l r : List (BufferedWriteAction Data)}
    (hb : w.writeInBuffer = l ++ a :: r) :
    (w.send a).writeInBuffer = l ++ { a with isSent := true } :: r := by
  have hids := hw.ids
  rw [hb] at hids
  show w.writeInBuffer.map _ = _
  rw [hb]
  exact Tables.map_at_key hids _

theorem Sound.mem_send (hw : Sound w) (ha : a ∈ w.writeInBuffer) {b : BufferedWriteAction Data}
    (hb : b ∈ (w.send a).writeInBuffer) :
    b ∈ w.writeInBuffer ∧ b.id ≠ a.id ∨ b = { a with isSent := true } := by
  obtain ⟨c, hc, ⟨hid, rfl⟩ | ⟨hne, rfl⟩⟩ := mem_modify hb
  · right
    rw [hw.eq_of_id hc ha hid]
  · exact .inl ⟨hc, hne⟩

theorem Sound.send (hw : Sound w) (hl : w.linkedOut = true) {l r : List (BufferedWriteAction Data)}
    (hb : w.writeInBuffer = l ++ a :: r) (hsent : ∀ b ∈ l, b.isSent)
    (hfree : a.id ∉ w.frames.filterMap BufferGateFrame.action) : Sound (w.send a) := by
  have hbuffer := writeInBuffer_send hw hb
  have hmem : a ∈ w.writeInBuffer := hb ▸ List.mem_append_right l List.mem_cons_self
  constructor
  case ids =>
    have hids := hw.ids
    rw [hb, List.map_append, List.map_cons] at hids
    rwa [hbuffer, List.map_append, List.map_cons]
  case below =>
    intro b hmb
    obtain ⟨hmb, -⟩ | rfl := hw.mem_send hmem hmb
    · exact hw.below b hmb
    · exact hw.below a hmem
  case sentFirst =>
    have hp := hw.sentFirst
    rw [hb, List.pairwise_append, List.pairwise_cons] at hp
    rw [hbuffer, List.pairwise_append, List.pairwise_cons]
    exact ⟨hp.1, ⟨fun _ _ _ => rfl, hp.2.1.2⟩, fun b hmb _ _ _ => hsent b hmb⟩
  case subscribed =>
    intro b hmb hs
    obtain ⟨hmb, -⟩ | rfl := hw.mem_send hmem hmb
    · exact hw.subscribed b hmb hs
    · rfl
  case busy => exact List.nodup_cons.mpr ⟨hfree, hw.busy⟩
  case held =>
    intro g hg i hi
    obtain rfl | hg := List.mem_cons.mp hg
    · cases hi
      exact ⟨{ a with isSent := true }, hbuffer ▸ List.mem_append_right l List.mem_cons_self, rfl,
        fun _ => rfl⟩
    · obtain ⟨b, hmb, rfl, h⟩ := hw.held g hg i hi
      have hne : b.id ≠ a.id := fun he => hfree (he ▸ mem_busy hg hi)
      exact ⟨b, List.mem_map.mpr ⟨b, hmb, if_neg hne⟩, rfl, h⟩
  case pinned =>
    intro l' i r' h
    cases l' with
    | nil => cases (List.cons.inj h).1
    | cons g l' =>
      obtain ⟨rfl, hrest⟩ := List.cons.inj h
      obtain ⟨⟨b, hmb, rfl⟩, hno⟩ := hw.pinned l' i r' hrest
      refine ⟨⟨_, List.mem_map_of_mem hmb, ?_⟩,
        fun hfin => hno ((List.mem_cons.mp hfin).resolve_left nofun)⟩
      beta_reduce
      split <;> rfl
  case unlinked =>
    intro hl'
    rw [show w.linkedOut = false from hl'] at hl
    cases hl

theorem Sound.quiet (hw : Sound w) (h : Quiet w w') : Sound w' := by
  cases h with
  | call f hf hl hpinned =>
    refine hw.call hl ?_ hpinned ?_
    · intro id hid
      rw [hf] at hid
      cases hid
    · rintro id rfl
      cases hf
  | ret f rest h => exact hw.ret h
  | refuse | passOn => exact { hw with }
  | enqueue data => exact hw.enqueue data _ _
  | link => exact { hw with unlinked := fun h => by cases h }
  | inform info hl =>
    exact { hw with unlinked := fun hl' => absurd hl (by rw [show w.linkedOut = false from hl']; decide) }
  | subscribe id rest h =>
    obtain ⟨-, a, ha, hid, hsent⟩ := hw.returning h rfl
    apply (hw.ret h).modify_subscribed
    intro b hb hbid
    rw [hw.eq_of_id hb ha (hbid.trans hid.symm)]
    exact hsent rfl
  | remove id rest h =>
    apply (hw.ret h).remove _ (hw.returning h rfl).1
    intro hid
    obtain ⟨l, r, rfl⟩ := List.append_of_mem hid
    exact (hw.pinned (.finishing id :: l) id r h).2 List.mem_cons_self

def finished (w : BufferGate Data) (a : BufferedWriteAction Data) : BufferGate Data :=
  { w.modify a.id fun a => { a with subscribed := false } with
    frames := .finishing a.id :: w.frames }

theorem Sound.finished (hw : Sound w) (ha : a ∈ w.writeInBuffer) (hs : a.subscribed = true)
    (hfree : a.id ∉ w.frames.filterMap BufferGateFrame.action) (hunpinned : .pinned a.id ∉ w.frames) :
    Sound (w.finished a) := by
  have hsent := hw.subscribed a ha hs
  have hall : ∀ b ∈ w.writeInBuffer, b.id = a.id → b.isSent :=
    fun b hb hid => hw.eq_of_id hb ha hid ▸ hsent
  refine (hw.modify_subscribed hall).call (.inr (hw.linked_of_sent ha hsent)) ?_ nofun ?_
  · intro id hid
    cases hid
    obtain ⟨b, hb, hid, -⟩ := mem_subscribe_of_mem ha
    exact ⟨hfree, b, hb, hid, nofun⟩
  · intro id hid
    cases hid
    exact hunpinned

end Sound

section Shape
variable {w w' : BufferGate Data} {a : BufferedWriteAction Data} {id : ℕ} {bad : ℕ → Prop}

/-- If the list can be drained, none of the bad writes waits in it, but for the one that is about to
be removed. -/
def Free (w : BufferGate Data) (bad : ℕ → Prop) (removing : Option ℕ) : Prop :=
  w.lastOutStreamInfo.isWriteble = true → ∀ a ∈ w.writeInBuffer, ¬a.isSent → bad a.id →
    removing = some a.id

/-- The event does not hand over a bad write, nor ends one that a call works on or that is used after a
call. -/
def Ready (w : BufferGate Data) (bad : ℕ → Prop) : BufferGateEvent Data → Prop
  | .write _ | .linkOut => True
  | .update info => w.lastOutStreamInfo = info → w.Free bad none
  | .finish id => ∀ a ∈ w.writeInBuffer, a.id = id → a.subscribed →
      id ∉ w.frames.filterMap BufferGateFrame.action ∧ .pinned id ∉ w.frames
  | .ret =>
    match w.frames with
    | [] | .callback :: _ | .pinned _ :: _ => True
    | .finishing id :: _ => w.Free bad (some id)
    | _ => w.Free bad none

section Decidable
variable (w) (bad) [DecidablePred bad]

instance (removing : Option ℕ) : Decidable (w.Free bad removing) :=
  inferInstanceAs (Decidable (_ → ∀ a ∈ w.writeInBuffer, _ → _ → _))

instance : (e : BufferGateEvent Data) → Decidable (w.Ready bad e)
  | .write _ | .linkOut => inferInstanceAs (Decidable True)
  | .update info => inferInstanceAs (Decidable (w.lastOutStreamInfo = info → w.Free bad none))
  | .finish _ => inferInstanceAs (Decidable (∀ a ∈ w.writeInBuffer, _ → _ → _))
  | .ret =>
    match h : w.frames with
    | [] | .callback :: _ | .pinned _ :: _ => isTrue (by simp only [Ready, h])
    | .finishing id :: _ => decidable_of_iff (w.Free bad (some id)) (by simp only [Ready, h])
    | .updated :: _ | .removed :: _ | .sending _ :: _ =>
      decidable_of_iff (w.Free bad none) (by simp only [Ready, h])

end Decidable

structure Sends (w : BufferGate Data) (a : BufferedWriteAction Data) : Prop where
  first : ∃ l r, w.writeInBuffer = l ++ a :: r ∧ ∀ b ∈ l, b.isSent
  unsent : ¬a.isSent
  writeble : w.lastOutStreamInfo.isWriteble = true
  free : a.id ∉ w.frames.filterMap BufferGateFrame.action

/-- The parts of a step, and the one `Send` that may end it. -/
structure Shape (w : BufferGate Data) (bad : ℕ → Prop) (w₁ w' : BufferGate Data) : Prop where
  quiet : Relation.ReflTransGen Quiet w w₁
  sends : w' = w₁ ∨ ∃ a, Sends w₁ a ∧ ¬bad a.id ∧ w' = w₁.send a

theorem Sends.mem (h : Sends w a) : a ∈ w.writeInBuffer := by
  obtain ⟨l, r, hb, -⟩ := h.first
  exact hb ▸ List.mem_append_right l List.mem_cons_self

theorem Sound.sends (hw : Sound w) (h : Sends w a) : Sound (w.send a) := by
  obtain ⟨l, r, hb, hsent⟩ := h.first
  exact hw.send (hw.linked_of_writeble h.writeble) hb hsent h.free

theorem quiets_preserve {I : BufferGate Data → Prop}
    (hquiet : ∀ v v', Sound v → I v → Quiet v v' → I v') (hw : Sound w) (hi : I w)
    (h : Relation.ReflTransGen Quiet w w') : Sound w' ∧ I w' := by
  induction h with
  | refl => exact ⟨hw, hi⟩
  | tail _ hq ih => exact ⟨ih.1.quiet hq, hquiet _ _ ih.1 ih.2 hq⟩

theorem Shape.preserves {w₁ : BufferGate Data} {I : BufferGate Data → Prop}
    (h : Shape w bad w₁ w') (hquiet : ∀ v v', Sound v → I v → Quiet v v' → I v')
    (hsend : ∀ v a, Sound v → I v → Sends v a → I (v.send a)) (hw : Sound w) (hi : I w) : I w' := by
  obtain ⟨hw₁, hi₁⟩ := quiets_preserve hquiet hw hi h.quiet
  obtain rfl | ⟨a, ha, -, rfl⟩ := h.sends
  · exact hi₁
  · exact hsend w₁ a hw₁ hi₁ ha

theorem Shape.sound {w₁ : BufferGate Data} (h : Shape w bad w₁ w') (hw : Sound w) : Sound w' :=
  h.preserves (fun _ _ hv _ hq => hv.quiet hq) (fun _ _ hv _ ha => hv.sends ha) hw hw

theorem Quiet.calls (h : Quiet w w') {f : BufferGateFrame} (hf : f ∈ w'.frames)
    (hid : f.action = some id) : f ∈ w.frames := by
  cases h with
  | call g hg =>
    obtain rfl | hf := List.mem_cons.mp hf
    · rw [hg] at hid
      cases hid
    · exact hf
  | ret g rest h | subscribe _ rest h | remove _ rest h =>
    rw [h]
    exact List.mem_cons_of_mem _ hf
  | refuse | enqueue | passOn | link | inform => exact hf

theorem quiets_busy (h : Relation.ReflTransGen Quiet w w')
    (hid : id ∈ w'.frames.filterMap BufferGateFrame.action) :
    id ∈ w.frames.filterMap BufferGateFrame.action := by
  induction h with
  | refl => exact hid
  | tail _ hq ih =>
    obtain ⟨f, hf, hact⟩ := List.mem_filterMap.mp hid
    exact ih (mem_busy (hq.calls hf hact) hact)

theorem drainFrom_cases (l : List (BufferedWriteAction Data)) :
    w.drainFrom l = w ∧ (w.lastOutStreamInfo.isWriteble = true → ∀ b ∈ l, b.isSent) ∨
      ∃ l₁ a l₂, l = l₁ ++ a :: l₂ ∧ (∀ b ∈ l₁, b.isSent) ∧ ¬a.isSent ∧
        w.lastOutStreamInfo.isWriteble = true ∧ w.drainFrom l = w.send a := by
  induction l with
  | nil => exact .inl ⟨rfl, fun _ b hb => absurd hb List.not_mem_nil⟩
  | cons a rest ih =>
    by_cases hwr : w.lastOutStreamInfo.isWriteble = true
    · by_cases hs : a.isSent = true
      · have hskip : w.drainFrom (a :: rest) = w.drainFrom rest := by simp [drainFrom, hwr, hs]
        have hcons : ∀ {l : List (BufferedWriteAction Data)}, (∀ b ∈ l, b.isSent) →
            ∀ b ∈ a :: l, b.isSent := by
          intro l hl b hb
          obtain rfl | hb := List.mem_cons.mp hb
          · exact hs
          · exact hl b hb
        rw [hskip]
        obtain ⟨h, hall⟩ | ⟨l₁, b, l₂, rfl, hl, hb, -, h⟩ := ih
        · exact .inl ⟨h, fun hwr => hcons (hall hwr)⟩
        · exact .inr ⟨a :: l₁, b, l₂, rfl, hcons hl, hb, hwr, h⟩
      · refine .inr ⟨[], a, rest, rfl, fun b hb => absurd hb List.not_mem_nil, hs, hwr, ?_⟩
        simp [drainFrom, hwr, hs]
    · exact .inl ⟨by simp [drainFrom, hwr], fun h => absurd h hwr⟩

section Drain
variable {w₁ : BufferGate Data} (h : Relation.ReflTransGen Quiet w w₁)
  (hbad : ∀ id ∈ w.frames.filterMap BufferGateFrame.action, bad id) (hfree : w₁.Free bad none)
include h hbad hfree

theorem shape_drainFrom {pre l : List (BufferedWriteAction Data)}
    (hb : w₁.writeInBuffer = pre ++ l) (hpre : ∀ b ∈ pre, b.isSent) :
    Shape w bad w₁ (w₁.drainFrom l) := by
  refine ⟨h, ?_⟩
  obtain ⟨hsame, -⟩ | ⟨l₁, a, l₂, rfl, hl, ha, hwr, hsend⟩ := w₁.drainFrom_cases l
  · exact .inl hsame
  · rw [← List.append_assoc] at hb
    have hsent : ∀ b ∈ pre ++ l₁, b.isSent := by
      intro b hmb
      obtain hmb | hmb := List.mem_append.mp hmb
      · exact hpre b hmb
      · exact hl b hmb
    have hgood : ¬bad a.id := by
      intro hisbad
      have hmem : a ∈ w₁.writeInBuffer := hb ▸ List.mem_append_right _ List.mem_cons_self
      cases hfree hwr a hmem ha hisbad
    exact .inr ⟨a, ⟨⟨pre ++ l₁, l₂, hb, hsent⟩, ha, hwr, fun hbusy =>
      hgood (hbad _ (quiets_busy h hbusy))⟩, hgood, hsend⟩

variable (hl : w₁.linkedOut = true)
include hl

theorem shape_drainBuffer : ∃ w', w₁.drainBuffer = some w' ∧ Shape w bad w₁ w' :=
  ⟨_, if_pos hl, shape_drainFrom h hbad hfree (List.nil_append _).symm
    fun _ h => absurd h List.not_mem_nil⟩

theorem shape_drainLinked : ∃ w', w₁.drainLinked = some w' ∧ Shape w bad w₁ w' := by
  by_cases hlinked : w₁.streamInfo.isLinked = true
  · rw [BufferGate.drainLinked, if_pos hlinked]
    exact shape_drainBuffer h hbad hfree hl
  · exact ⟨w₁, if_neg hlinked, h, .inl rfl⟩

end Drain

theorem soft_eq {info : StreamInfo} {value : Bool} (h : info.isSoftWritable = value) :
    { info with isSoftWritable := value } = info := by
  rw [← h]

theorem Sound.shape_write (hw : Sound w) (data : Data) :
    ∃ w', w.write data = some w' ∧ Relation.ReflTransGen Quiet w w' := by
  by_cases hbuf : (!w.lastOutStreamInfo.isWriteble || !w.lastOutStreamInfo.isLinked ||
      !w.writeInBuffer.isEmpty) = true
  · by_cases hsoft : w.streamInfo.isSoftWritable = true
    · have hadd := Quiet.enqueue (w := w) data hsoft
      by_cases hfull : w.writeInBuffer.length + 1 = w.bufferMax
      · simp only [hfull, ne_eq, not_true_eq_false, decide_false] at hadd
        refine ⟨_, ?_, (Relation.ReflTransGen.single hadd).tail
          (.call (.pinned w.fresh) rfl (.inl rfl) fun id hid => ?_)⟩
        · simp [BufferGate.write, hbuf, hsoft, hfull, setSoftWriteable]
        · cases hid
          exact ⟨_, List.mem_append_right _ List.mem_cons_self, rfl⟩
      · simp only [hfull, ne_eq, not_false_eq_true, decide_true, soft_eq hsoft] at hadd
        refine ⟨_, ?_, .single hadd⟩
        simp [BufferGate.write, hbuf, hsoft, hfull]
    · refine ⟨_, ?_, .single (.refuse data (eq_false_of_ne_true hsoft))⟩
      simp [BufferGate.write, hbuf, hsoft]
  · obtain ⟨hout, hempty⟩ : (w.lastOutStreamInfo.isWriteble = true ∧
        w.lastOutStreamInfo.isLinked = true) ∧ w.writeInBuffer = [] := by
      simpa using hbuf
    have hl := hw.linked_of_writeble hout.1
    refine ⟨_, ?_, (Relation.ReflTransGen.single (.passOn data hempty)).tail
      (.call .callback rfl (.inl rfl) nofun)⟩
    simp [BufferGate.write, hout, hempty, hl]

theorem dropWhile_id (hw : Sound w) {l r : List (BufferedWriteAction Data)}
    (hb : w.writeInBuffer = l ++ a :: r) :
    (w.writeInBuffer.dropWhile fun b => b.id ≠ a.id) = a :: r := by
  have hids := hw.ids
  rw [hb, List.map_append, List.map_cons, List.nodup_append] at hids
  have hne : ∀ b ∈ l, b.id ≠ a.id := fun b hmb =>
    hids.2.2 b.id (List.mem_map_of_mem hmb) a.id List.mem_cons_self
  rw [hb, List.dropWhile_append_of_pos fun b hmb => decide_eq_true (hne b hmb)]
  simp

theorem Sound.resume_sending (hw : Sound w) {rest : List BufferGateFrame}
    (h : w.frames = .sending id :: rest) : ∃ pre l,
      ({ w with frames := rest }.modify id fun a => { a with subscribed := true }).writeInBuffer =
        pre ++ l ∧ (∀ b ∈ pre, b.isSent) ∧ { w with frames := rest }.resume (.sending id) =
          some (({ w with frames := rest }.modify id fun a => { a with subscribed := true }).drainFrom
            l) := by
  obtain ⟨-, a, ha, rfl, hs⟩ := hw.returning h rfl
  obtain ⟨l, r, hb⟩ := List.append_of_mem ha
  have hids := hw.ids
  rw [hb] at hids
  have hl : ∀ b ∈ l, b.isSent := by
    have hp := hw.sentFirst
    rw [hb, List.pairwise_append] at hp
    exact fun b hmb => hp.2.2 b hmb a List.mem_cons_self (hs rfl)
  refine ⟨l ++ [{ a with subscribed := true }], r, ?_, ?_, ?_⟩
  · rw [modify, hb, Tables.map_at_key hids, List.append_assoc]
    rfl
  · intro b hmb
    obtain hmb | hmb := List.mem_append.mp hmb
    · exact hl b hmb
    · rw [List.mem_singleton.mp hmb]
      exact hs rfl
  · simp only [BufferGate.resume, dropWhile_id hw hb]

section Step
variable (hbad : ∀ id ∈ w.frames.filterMap BufferGateFrame.action, bad id)
include hbad

theorem shape_updateGate (hl : w.linkedOut = true) (info : StreamInfo)
    (hfree : w.lastOutStreamInfo = info → w.Free bad none) :
    ∃ w₁ w', w.updateGate info = some w' ∧ Shape w bad w₁ w' := by
  by_cases h : w.lastOutStreamInfo = info
  · rw [BufferGate.updateGate, if_neg (not_not_intro h)]
    exact ⟨w, shape_drainLinked .refl hbad (hfree h) hl⟩
  · refine ⟨_, _, if_pos h, ?_, .inl rfl⟩
    apply (Relation.ReflTransGen.single (.inform info hl)).tail
    exact .call .updated rfl (.inr hl) nofun

theorem Sound.shape_removeAction (hw : Sound w) {rest : List BufferGateFrame}
    (h : w.frames = .finishing id :: rest) (hfree : w.Free bad (some id)) :
    ∃ w₁ w', { w with frames := rest }.removeAction id = some w' ∧ Shape w bad w₁ w' := by
  obtain ⟨-, a, ha, hid, -⟩ := hw.returning h rfl
  have hl := hw.linked_of_frame (h ▸ List.mem_cons_self) (f := .finishing id) rfl
  have hany : (w.writeInBuffer.any fun a => a.id = id) = true :=
    List.any_eq_true.mpr ⟨a, ha, decide_eq_true hid⟩
  have hremove := Quiet.remove id rest h
  rw [BufferGate.removeAction, if_pos hany]
  by_cases hsoft : w.streamInfo.isSoftWritable = true
  · rw [soft_eq hsoft] at hremove
    rw [setSoftWriteable, if_neg (not_not_intro hsoft)]
    refine ⟨_, shape_drainBuffer (.single hremove) hbad ?_ hl⟩
    intro hwr b hb hsent hisbad
    obtain ⟨hmem, hne⟩ := List.mem_filter.mp hb
    have hsame : id = b.id := Option.some.inj (hfree hwr b hmem hsent hisbad)
    exact absurd hsame.symm (of_decide_eq_true hne)
  · refine ⟨_, _, if_pos hsoft, ?_, .inl rfl⟩
    exact (Relation.ReflTransGen.single hremove).tail (.call .removed rfl (.inr hl) nofun)

theorem Sound.shape_sending (hw : Sound w) {rest : List BufferGateFrame}
    (h : w.frames = .sending id :: rest) (hfree : w.Free bad none) :
    ∃ w₁ w', { w with frames := rest }.resume (.sending id) = some w' ∧ Shape w bad w₁ w' := by
  obtain ⟨pre, l, hbuffer, hpre, hresume⟩ := hw.resume_sending h
  refine ⟨_, _, hresume,
    shape_drainFrom (.single (.subscribe id rest h)) hbad ?_ hbuffer hpre⟩
  intro hwr b hmb hsent hisbad
  obtain ⟨c, hc, hid, hsame, -⟩ := mem_subscribe hmb
  rw [hid] at hisbad
  rw [hsame] at hsent
  cases hfree hwr c hc hsent hisbad

theorem Sound.shape (hw : Sound w) {e : BufferGateEvent Data} (he : ∀ id, e ≠ .finish id)
    (hr : w.Ready bad e) : ∃ w₁ w', w.step e = some w' ∧ Shape w bad w₁ w' := by
  cases e with
  | write data =>
    obtain ⟨w', hstep, hquiet⟩ := hw.shape_write data
    exact ⟨w', w', hstep, hquiet, .inl rfl⟩
  | linkOut =>
    refine ⟨_, _, rfl, ?_, .inl rfl⟩
    exact (Relation.ReflTransGen.single .link).tail (.call .callback rfl (.inl rfl) nofun)
  | update info =>
    by_cases hl : w.linkedOut = true
    · rw [BufferGate.step, if_pos hl]
      exact shape_updateGate hbad hl info hr
    · exact ⟨w, w, if_neg hl, .refl, .inl rfl⟩
  | finish id => exact absurd rfl (he id)
  | ret =>
    cases h : w.frames with
    | nil => exact ⟨w, w, by simp only [BufferGate.step, h], .refl, .inl rfl⟩
    | cons f rest =>
      simp only [BufferGate.step, h]
      have hmem : f ∈ w.frames := h ▸ List.mem_cons_self
      cases f with
      | callback => exact ⟨_, _, rfl, .single (.ret _ rest h rfl), .inl rfl⟩
      | pinned id =>
        obtain ⟨a, ha, hid⟩ := (hw.pinned [] id rest h).1
        have hany : (w.writeInBuffer.any fun a => a.id = id) = true :=
          List.any_eq_true.mpr ⟨a, ha, decide_eq_true hid⟩
        exact ⟨_, _, if_pos hany, .single (.ret _ rest h rfl), .inl rfl⟩
      | updated =>
        have hfree : w.Free bad none := by simpa only [Ready, h] using hr
        exact ⟨_, shape_drainLinked (.single (.ret _ rest h rfl)) hbad hfree
          (hw.linked_of_frame hmem rfl)⟩
      | removed =>
        have hfree : w.Free bad none := by simpa only [Ready, h] using hr
        exact ⟨_, shape_drainBuffer (.single (.ret _ rest h rfl)) hbad hfree
          (hw.linked_of_frame hmem rfl)⟩
      | finishing id =>
        have hfree : w.Free bad (some id) := by simpa only [Ready, h] using hr
        exact hw.shape_removeAction hbad h hfree
      | sending id =>
        have hfree : w.Free bad none := by simpa only [Ready, h] using hr
        exact hw.shape_sending hbad h hfree

end Step

theorem step_finish_of_subscribed (ha : a ∈ w.writeInBuffer) (hs : a.subscribed = true) :
    w.step (.finish a.id) = some (w.finished a) :=
  if_pos (List.any_eq_true.mpr ⟨a, ha, decide_eq_true ⟨rfl, hs⟩⟩)

theorem step_finish (w : BufferGate Data) (id : ℕ) : w.step (.finish id) = some w ∨
    ∃ a ∈ w.writeInBuffer, a.id = id ∧ a.subscribed = true ∧
      w.step (.finish id) = some (w.finished a) := by
  by_cases hany : (w.writeInBuffer.any fun a => a.id = id ∧ a.subscribed) = true
  · obtain ⟨a, ha, hp⟩ := List.any_eq_true.mp hany
    obtain ⟨rfl, hsub⟩ := of_decide_eq_true hp
    exact .inr ⟨a, ha, rfl, hsub, step_finish_of_subscribed ha hsub⟩
  · exact .inl (if_neg hany)

theorem Sound.step_preserves {I : BufferGate Data → Prop}
    (hquiet : ∀ v v', Sound v → I v → Quiet v v' → I v')
    (hsend : ∀ v a, Sound v → I v → Sends v a → I (v.send a))
    (hfinish : ∀ v a, Sound v → I v → a ∈ v.writeInBuffer → a.subscribed = true → I (v.finished a))
    (hw : Sound w) (hi : I w) {e : BufferGateEvent Data}
    (hr : w.Ready (· ∈ w.frames.filterMap BufferGateFrame.action) e) :
    ∃ w', w.step e = some w' ∧ Sound w' ∧ I w' := by
  by_cases he : ∀ id, e ≠ .finish id
  · obtain ⟨w₁, w', hstep, hshape⟩ := hw.shape (fun _ h => h) he hr
    exact ⟨w', hstep, hshape.sound hw, hshape.preserves hquiet hsend hw hi⟩
  · obtain ⟨id, rfl⟩ := not_forall_not.mp he
    obtain hstep | ⟨a, ha, rfl, hs, hstep⟩ := w.step_finish id
    · exact ⟨w, hstep, hw, hi⟩
    · obtain ⟨hfree, hunpinned⟩ := hr a ha rfl hs
      exact ⟨_, hstep, hw.finished ha hs hfree hunpinned, hfinish w a hw hi ha hs⟩

end Shape

def WorksOnSent (w : BufferGate Data) : Prop :=
  ∀ id ∈ w.frames.filterMap BufferGateFrame.action,
    ∃ a ∈ w.writeInBuffer, a.id = id ∧ a.isSent ∧ ¬a.subscribed

/-- The event does not finish a write while its own `Write` is under way. -/
def Settled (w : BufferGate Data) : BufferGateEvent Data → Prop
  | .finish id => .pinned id ∉ w.frames
  | .write _ | .linkOut | .update _ | .ret => True

instance (w : BufferGate Data) : (e : BufferGateEvent Data) → Decidable (w.Settled e)
  | .finish id => inferInstanceAs (Decidable (.pinned id ∉ w.frames))
  | .write _ | .linkOut | .update _ | .ret => inferInstanceAs (Decidable True)

section WorksOnSent
variable {w w' : BufferGate Data} {a : BufferedWriteAction Data} (hs : WorksOnSent w) (hw : Sound w)
include hs hw

theorem WorksOnSent.free (removing : Option ℕ) :
    w.Free (· ∈ w.frames.filterMap BufferGateFrame.action) removing := by
  intro _ a ha hsent hbusy
  obtain ⟨b, hb, hid, hbs, -⟩ := hs a.id hbusy
  exact absurd (hw.eq_of_id hb ha hid ▸ hbs) hsent

theorem WorksOnSent.ready {e : BufferGateEvent Data} (he : w.Settled e) :
    w.Ready (· ∈ w.frames.filterMap BufferGateFrame.action) e := by
  cases e with
  | write | linkOut => trivial
  | update => exact fun _ => hs.free hw none
  | finish id =>
    intro a ha hid hsub
    refine ⟨fun hbusy => ?_, he⟩
    obtain ⟨b, hb, hbid, -, hno⟩ := hs id hbusy
    exact hno (hw.eq_of_id hb ha (hbid.trans hid.symm) ▸ hsub)
  | ret =>
    simp only [Ready]
    split
    · trivial
    · trivial
    · trivial
    · exact hs.free hw _
    · exact hs.free hw _

theorem WorksOnSent.quiet (h : Quiet w w') : WorksOnSent w' := by
  cases h with
  | call f hf =>
    rw [WorksOnSent, busy_cons_of_none hf]
    exact hs
  | ret f rest h hf =>
    have hbefore := hs
    rwa [WorksOnSent, h, busy_cons_of_none hf] at hbefore
  | enqueue =>
    intro i hi
    obtain ⟨b, hb, h⟩ := hs i hi
    exact ⟨b, List.mem_append_left _ hb, h⟩
  | refuse | passOn | link | inform => exact hs
  | subscribe id rest h =>
    intro i hi
    obtain ⟨hbusy, hne⟩ := hw.busy_of_rest h rfl hi
    obtain ⟨b, hb, rfl, hrest⟩ := hs i hbusy
    exact ⟨b, List.mem_map.mpr ⟨b, hb, if_neg hne⟩, rfl, hrest⟩
  | remove id rest h =>
    intro i hi
    obtain ⟨hbusy, hne⟩ := hw.busy_of_rest h rfl hi
    obtain ⟨b, hb, rfl, hrest⟩ := hs i hbusy
    exact ⟨b, List.mem_filter.mpr ⟨hb, decide_eq_true hne⟩, rfl, hrest⟩

theorem WorksOnSent.finished (ha : a ∈ w.writeInBuffer) (hsub : a.subscribed = true) :
    WorksOnSent (w.finished a) := by
  have hgone : ∀ b ∈ w.writeInBuffer, b.isSent → (b.id = a.id ∨ ¬b.subscribed) →
      ∃ c ∈ (w.modify a.id fun a => { a with subscribed := false }).writeInBuffer,
        c.id = b.id ∧ c.isSent ∧ ¬c.subscribed := by
    intro b hb hbs hsub
    obtain ⟨c, hc, hid, hsent, hvalue⟩ : ∃ c ∈ (w.modify a.id
        fun a => { a with subscribed := false }).writeInBuffer, c.id = b.id ∧
        c.isSent = b.isSent ∧ (c.subscribed = if b.id = a.id then false else b.subscribed) :=
      mem_subscribe_of_mem hb
    refine ⟨c, hc, hid, hsent ▸ hbs, ?_⟩
    rw [hvalue]
    split
    · exact Bool.false_ne_true
    · next hne => exact hsub.resolve_left hne
  intro i hi
  have hi' : i ∈ a.id :: w.frames.filterMap BufferGateFrame.action := hi
  obtain rfl | hi' := List.mem_cons.mp hi'
  · exact hgone a ha (hw.subscribed a ha hsub) (.inl rfl)
  · obtain ⟨b, hb, rfl, hbs, hno⟩ := hs i hi'
    exact hgone b hb hbs (.inr hno)

theorem WorksOnSent.send (h : Sends w a) : WorksOnSent (w.send a) := by
  obtain ⟨l, r, hb, -⟩ := h.first
  intro i hi
  have hi' : i ∈ a.id :: w.frames.filterMap BufferGateFrame.action := hi
  obtain rfl | hi' := List.mem_cons.mp hi'
  · refine ⟨{ a with isSent := true }, ?_, rfl, rfl, fun hsub => h.unsent (hw.subscribed a h.mem hsub)⟩
    rw [writeInBuffer_send hw hb]
    exact List.mem_append_right l List.mem_cons_self
  · obtain ⟨b, hmb, rfl, hrest⟩ := hs i hi'
    have hne : b.id ≠ a.id := fun he => h.free (he ▸ hi')
    exact ⟨b, List.mem_map.mpr ⟨b, hmb, if_neg hne⟩, rfl, hrest⟩

end WorksOnSent

section Record
variable {w w' : BufferGate Data}

def record (w : BufferGate Data) : StreamInfo × List (WriteAnswer Data) :=
  (w.lastOutStreamInfo, w.answers)

theorem record_drainFrom (l : List (BufferedWriteAction Data)) :
    (w.drainFrom l).record = w.record := by
  obtain ⟨hsame, -⟩ | ⟨-, a, -, -, -, -, -, hsend⟩ := w.drainFrom_cases l
  · rw [hsame]
  · rw [hsend]
    rfl

theorem record_drainBuffer (h : w.drainBuffer = some w') : w'.record = w.record := by
  unfold drainBuffer at h
  split at h
  · cases h
    exact record_drainFrom _
  · cases h

theorem record_drainLinked (h : w.drainLinked = some w') : w'.record = w.record := by
  unfold drainLinked at h
  split at h
  · exact record_drainBuffer h
  · cases h
    rfl

theorem record_removeAction {id : ℕ} (h : w.removeAction id = some w') : w'.record = w.record := by
  unfold removeAction setSoftWriteable at h
  split at h
  · split at h
    · cases h
      rfl
    · have hsame := record_drainBuffer h
      exact hsame
  · cases h

theorem record_resume {f : BufferGateFrame} (h : w.resume f = some w') : w'.record = w.record := by
  cases f with
  | callback =>
    cases h
    rfl
  | pinned id =>
    simp only [BufferGate.resume] at h
    split at h
    · cases h
      rfl
    · cases h
  | updated => exact record_drainLinked h
  | removed => exact record_drainBuffer h
  | finishing id => exact record_removeAction h
  | sending id =>
    simp only [BufferGate.resume] at h
    split at h
    · cases h
    · cases h
      exact record_drainFrom _

theorem record_updateGate {info : StreamInfo} (h : w.updateGate info = some w') :
    w'.record = (info, w.answers) := by
  unfold updateGate at h
  split at h
  · cases h
    rfl
  · next hsame =>
    rw [record_drainLinked h, record, not_not.mp hsame]

theorem record_write {data : Data} (h : w.write data = some w') :
    ∃ answer, w'.record = (w.lastOutStreamInfo, w.answers ++ [answer]) ∧ answer.data = data := by
  simp only [BufferGate.write, setSoftWriteable] at h
  split at h
  · split at h
    · cases h
      exact ⟨_, rfl, rfl⟩
    · split at h
      · split at h <;> cases h <;> exact ⟨_, rfl, rfl⟩
      · cases h
        exact ⟨_, rfl, rfl⟩
  · split at h
    · cases h
      exact ⟨_, rfl, rfl⟩
    · cases h

theorem record_step {e : BufferGateEvent Data} (h : w.step e = some w')
    (hwrite : ∀ data, e ≠ .write data) (hupdate : ∀ info, e ≠ .update info) :
    w'.record = w.record := by
  cases e with
  | write data => exact absurd rfl (hwrite data)
  | linkOut =>
    cases h
    rfl
  | update info => exact absurd rfl (hupdate info)
  | finish id =>
    obtain hstep | ⟨a, -, -, -, hstep⟩ := w.step_finish id <;>
    · rw [hstep] at h
      cases h
      rfl
  | ret =>
    simp only [BufferGate.step] at h
    split at h
    · cases h
      rfl
    · have hsame := record_resume h
      exact hsame

theorem lastOut_step {e : BufferGateEvent Data} (h : w.step e = some w')
    (he : ∀ info, e ≠ .update info) : w'.lastOutStreamInfo = w.lastOutStreamInfo := by
  by_cases hwrite : ∃ data, e = .write data
  · obtain ⟨data, rfl⟩ := hwrite
    obtain ⟨answer, hrecord, -⟩ := record_write h
    exact congrArg Prod.fst hrecord
  · exact congrArg Prod.fst (record_step h (not_exists.mp hwrite) he)

theorem answers_step {e : BufferGateEvent Data} (h : w.step e = some w') :
    w'.answers.map WriteAnswer.data = w.answers.map WriteAnswer.data ++ e.written.toList := by
  cases e with
  | write data =>
    obtain ⟨answer, hrecord, rfl⟩ := record_write h
    rw [show w'.answers = _ from congrArg Prod.snd hrecord, List.map_append]
    rfl
  | update info =>
    have hsame : w'.answers = w.answers := by
      simp only [BufferGate.step] at h
      split at h
      · exact congrArg Prod.snd (record_updateGate h)
      · cases h
        rfl
    rw [hsame]
    exact (List.append_nil _).symm
  | linkOut | finish | ret =>
    have hrecord := record_step h (by simp) (by simp)
    rw [show w'.answers = w.answers from congrArg Prod.snd hrecord]
    exact (List.append_nil _).symm

end Record
end BufferGate
end AetherClient
