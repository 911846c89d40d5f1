import AetherClient.Runs
import AetherClient.SendDataBuffer
import Mathlib.Algebra.BigOperators.Group.List.Basic
import Mathlib.Data.List.Forall2

set_option autoImplicit false

namespace AetherClient

namespace SendDataBuffer

def writes (b : SendDataBuffer) : List (ℕ × SendingData) :=
  b.sendActionViews.map fun a => (a.id, a.sendingData)

theorem set_sendingData (a : SendingDataAction) (state : SendingState) :
    (a.set state).id = a.id ∧ (a.set state).sendingData = a.sendingData := by
  unfold SendingDataAction.set
  split_ifs
  · exact ⟨rfl, rfl⟩
  · exact ⟨rfl, rfl⟩

theorem set_state (a : SendingDataAction) (state : SendingState) :
    (a.set state).state = state := by
  unfold SendingDataAction.set
  split_ifs with h
  · exact h
  · rfl

theorem set_changed {a : SendingDataAction} {state : SendingState} (h : a.state ≠ state) :
    (a.set state).changed = true := by
  rw [SendingDataAction.set, if_neg h]

section Slice

def Marked (a a' : SendingDataAction) : Prop := a' = a ∨ a' = a.sending

theorem sliceFrom_marked {views views' : List SendingDataAction} {current : SafeStreamRingIndex}
    {remaining : ℕ} {data : DataBuffer}
    (h : sliceFrom views current remaining = some (views', data)) :
    List.Forall₂ Marked views views' := by
  induction views generalizing current remaining views' data with
  | nil =>
    cases h
    exact .nil
  | cons a rest ih =>
    simp only [sliceFrom] at h
    split_ifs at h
    · cases h
      exact .cons (.inr rfl) (List.forall₂_same.2 fun _ _ => .inl rfl)
    · obtain ⟨tail, ht, he⟩ := Option.map_eq_some_iff.1 h
      cases he
      exact .cons (.inr rfl) (ih ht)

theorem getSlice_marked {w : ℕ} {b b' : SendDataBuffer} {offset : SafeStreamRingIndex}
    {maxSize : ℕ} {chunk : DataChunk} (h : getSlice w b offset maxSize = some (b', chunk)) :
    List.Forall₂ Marked b.sendActionViews b'.sendActionViews := by
  let outside := fun a : SendingDataAction => !(a.sendingData.getOffsetRange w).inRange offset
  obtain ⟨slice, hslice, he⟩ := Option.map_eq_some_iff.1 h
  cases he
  have hfront : List.Forall₂ Marked (b.sendActionViews.takeWhile outside)
      (b.sendActionViews.takeWhile outside) := List.forall₂_same.2 fun _ _ => .inl rfl
  have hviews := List.rel_append hfront (sliceFrom_marked hslice)
  dsimp only at hviews
  rw [List.takeWhile_append_dropWhile] at hviews
  exact hviews

theorem map_of_marked {views views' : List SendingDataAction} (h : List.Forall₂ Marked views views') :
    views'.map (fun a => (a.id, a.sendingData)) = views.map fun a => (a.id, a.sendingData) := by
  induction h with
  | nil => rfl
  | @cons a a' _ _ hmark _ ih =>
    obtain ⟨hid, hdata⟩ := set_sendingData a .sending
    rw [List.map_cons, List.map_cons, ih]
    rcases hmark with rfl | rfl
    · rfl
    · exact congrArg (· :: _) (Prod.ext hid hdata)

theorem mem_of_marked {views views' : List SendingDataAction}
    (h : List.Forall₂ Marked views views') :
    ∀ a ∈ views', a ∈ views ∨ a.state = .sending := by
  induction h with
  | nil => exact fun a ha => absurd ha List.not_mem_nil
  | @cons c c' _ _ hmark _ ih =>
    intro a ha
    rcases List.mem_cons.1 ha with rfl | ha
    · rcases hmark with rfl | rfl
      · exact .inl List.mem_cons_self
      · exact .inr (set_state c .sending)
    · exact (ih a ha).imp_left (List.mem_cons_of_mem c)

theorem sliceFrom_writes {views views' : List SendingDataAction} {current : SafeStreamRingIndex}
    {remaining : ℕ} {data : DataBuffer}
    (h : sliceFrom views current remaining = some (views', data)) :
    views'.map (fun a => (a.id, a.sendingData)) = views.map fun a => (a.id, a.sendingData) :=
  map_of_marked (sliceFrom_marked h)

theorem getSlice_writes {w : ℕ} {b b' : SendDataBuffer} {offset : SafeStreamRingIndex}
    {maxSize : ℕ} {chunk : DataChunk} (h : getSlice w b offset maxSize = some (b', chunk)) :
    b'.writes = b.writes := map_of_marked (getSlice_marked h)

theorem getSlice_fields {w : ℕ} {b b' : SendDataBuffer} {offset : SafeStreamRingIndex}
    {maxSize : ℕ} {chunk : DataChunk} (h : getSlice w b offset maxSize = some (b', chunk)) :
    b'.bufferSize = b.bufferSize ∧ b'.finished = b.finished := by
  obtain ⟨slice, -, he⟩ := Option.map_eq_some_iff.1 h
  cases he
  exact ⟨rfl, rfl⟩

/-- Each of the writes begins where the one before it ends, as far as `remaining` bytes reach. -/
def Adjacent : SafeStreamRingIndex → ℕ → List SendingDataAction → Prop
  | _, _, [] => True
  | position, remaining, a :: rest => remaining = 0 ∨ a.sendingData.offset = position ∧
      Adjacent (position.clockwise (toUint16 a.sendingData.data.length))
        (remaining - a.sendingData.data.length) rest

instance Adjacent.decidable : (position : SafeStreamRingIndex) → (remaining : ℕ) →
    (views : List SendingDataAction) → Decidable (Adjacent position remaining views)
  | _, _, [] => inferInstanceAs (Decidable True)
  | position, remaining, a :: rest =>
    have := Adjacent.decidable (position.clockwise (toUint16 a.sendingData.data.length))
      (remaining - a.sendingData.data.length) rest
    inferInstanceAs (Decidable (_ ∨ _ ∧ _))

def NoGapFrom (offset : SafeStreamRingIndex) (maxSize : ℕ) : List SendingDataAction → Prop
  | [] => True
  | a :: rest =>
    let skip := a.sendingData.offset.distance offset
    let size := a.sendingData.data.length - skip
    skip ≤ a.sendingData.data.length ∧
      Adjacent (offset.clockwise (toUint16 size)) (maxSize - size) rest

instance (offset : SafeStreamRingIndex) (maxSize : ℕ) :
    (views : List SendingDataAction) → Decidable (NoGapFrom offset maxSize views)
  | [] => inferInstanceAs (Decidable True)
  | _ :: _ => inferInstanceAs (Decidable (_ ∧ _))

/-- The writes from the first one on that has the offset in its range lie side by side. -/
def NoGap (w : ℕ) (b : SendDataBuffer) (offset : SafeStreamRingIndex) (maxSize : ℕ) : Prop :=
  NoGapFrom offset maxSize
    (b.sendActionViews.dropWhile fun a => !(a.sendingData.getOffsetRange w).inRange offset)

instance (w : ℕ) (b : SendDataBuffer) (offset : SafeStreamRingIndex) (maxSize : ℕ) :
    Decidable (b.NoGap w offset maxSize) := inferInstanceAs (Decidable (NoGapFrom ..))

theorem sliceFrom_of_adjacent {views : List SendingDataAction} {position : SafeStreamRingIndex}
    {remaining : ℕ} (hr : 0 < remaining) (h : Adjacent position remaining views) :
    ∃ slice, sliceFrom views position remaining = some slice := by
  induction views generalizing position remaining with
  | nil => exact ⟨_, rfl⟩
  | cons a rest ih =>
    obtain ⟨rfl, hrest⟩ := h.resolve_left (Nat.ne_of_gt hr)
    simp only [sliceFrom, RingIndex.distance_self, Nat.zero_le, if_true, Nat.sub_zero]
    by_cases hmore : a.sendingData.data.length < remaining
    · rw [Nat.min_eq_left (Nat.le_of_lt hmore), if_neg (by omega)]
      obtain ⟨tail, ht⟩ := ih (Nat.sub_pos_of_lt hmore) hrest
      exact ⟨_, congrArg _ ht⟩
    · rw [Nat.min_eq_right (Nat.le_of_not_lt hmore), if_pos (Nat.sub_self _)]
      exact ⟨_, rfl⟩

theorem sliceFrom_of_noGap {views : List SendingDataAction} {offset : SafeStreamRingIndex}
    {maxSize : ℕ} (h : NoGapFrom offset maxSize views) :
    ∃ slice, sliceFrom views offset maxSize = some slice := by
  cases views with
  | nil => exact ⟨_, rfl⟩
  | cons a rest =>
    obtain ⟨hskip, hrest⟩ := h
    simp only [sliceFrom, if_pos hskip]
    by_cases hmore : a.sendingData.data.length - a.sendingData.offset.distance offset < maxSize
    · rw [Nat.min_eq_left (Nat.le_of_lt hmore), if_neg (by omega)]
      obtain ⟨tail, ht⟩ := sliceFrom_of_adjacent (Nat.sub_pos_of_lt hmore) hrest
      exact ⟨_, congrArg _ ht⟩
    · rw [Nat.min_eq_right (Nat.le_of_not_lt hmore), if_pos (Nat.sub_self _)]
      exact ⟨_, rfl⟩

theorem getSlice_of_noGap {w : ℕ} {b : SendDataBuffer} {offset : SafeStreamRingIndex}
    {maxSize : ℕ} (h : b.NoGap w offset maxSize) :
    ∃ b' chunk, getSlice w b offset maxSize = some (b', chunk) := by
  obtain ⟨slice, hslice⟩ := sliceFrom_of_noGap h
  rw [getSlice, hslice]
  exact ⟨_, _, rfl⟩

end Slice

theorem removeWhere_writes (b : SendDataBuffer) (p : SendingDataAction → Bool)
    (mark : SendingDataAction → SendingDataAction) :
    (b.removeWhere p mark).writes.Sublist b.writes :=
  List.filter_sublist.map _

section Count
variable {b : SendDataBuffer}

def buffered (b : SendDataBuffer) : ℕ := (b.writes.map fun d => d.2.data.length).sum

def Counted (b : SendDataBuffer) : Prop := b.bufferSize = b.buffered

theorem Counted.addData (h : b.Counted) (id : ℕ) (data : SendingData) :
    (b.addData id data).Counted := by
  have hb : (b.addData id data).buffered = b.buffered + data.data.length := by
    simp [buffered, writes, SendDataBuffer.addData]
  rw [Counted, hb, ← h]
  rfl

theorem Counted.of_writes {b' : SendDataBuffer} (h : b.Counted) (hw : b'.writes = b.writes)
    (hs : b'.bufferSize = b.bufferSize) : b'.Counted := by
  rw [Counted, buffered, hw, hs]
  exact h

theorem Counted.removeWhere (h : b.Counted) (p : SendingDataAction → Bool)
    (mark : SendingDataAction → SendingDataAction) : (b.removeWhere p mark).Counted := by
  have hsplit := ((List.filter_append_perm p b.sendActionViews).map
    fun a => a.sendingData.data.length).sum_eq
  rw [List.map_append, List.sum_append] at hsplit
  have hcount : b.bufferSize = (b.sendActionViews.map fun a => a.sendingData.data.length).sum := by
    rw [h, buffered, writes, List.map_map]
    rfl
  simp only [Counted, buffered, writes, SendDataBuffer.removeWhere, List.map_map,
    Function.comp_def]
  omega

end Count

section Update

def result (a : SendingDataAction) : ℕ × SendingState := (a.id, a.state)

theorem update_fields (a : SendingDataAction) :
    a.update.1.id = a.id ∧ a.update.1.sendingData = a.sendingData ∧ a.update.1.state = a.state := by
  unfold SendingDataAction.update
  split_ifs
  · exact ⟨rfl, rfl, rfl⟩
  · exact ⟨rfl, rfl, rfl⟩

theorem update_report {a : SendingDataAction} {state : SendingState} (h : a.update.2 = some state) :
    state = a.state := by
  unfold SendingDataAction.update at h
  split_ifs at h
  cases ha : a.state <;> simp_all

def Ended (state : SendingState) : Prop := state = .done ∨ state = .failed ∨ state = .stopped

theorem update_isSome {a : SendingDataAction} (hc : a.changed = true) (hs : Ended a.state) :
    a.update.2.isSome = true := by
  rw [SendingDataAction.update, if_pos hc]
  rcases hs with hs | hs | hs <;> rw [hs] <;> rfl

theorem updateAction_writes (b : SendDataBuffer) (id : ℕ) : (b.updateAction id).1.writes = b.writes := by
  unfold updateAction writes
  rw [List.map_map]
  apply List.map_congr_left
  intro a _
  dsimp only [Function.comp]
  obtain ⟨hid, hdata, -⟩ := update_fields a
  split_ifs
  · rw [hid, hdata]
  · rfl

theorem updateAction_results (b : SendDataBuffer) (id : ℕ) :
    ((b.updateAction id).1.finished.map result ++ (b.updateAction id).2).Perm
      (b.finished.map result) := by
  unfold updateAction
  dsimp only
  generalize b.finished = actions
  induction actions with
  | nil => exact .refl _
  | cons a actions ih =>
    obtain ⟨hid, -, hstate⟩ := update_fields a
    by_cases ha : a.id = id
    · cases hreport : a.update.2 with
      | none =>
        have hresult : result a.update.1 = result a := Prod.ext hid hstate
        simpa [ha, hreport, hresult] using ih
      | some state =>
        have hresult : (id, state) = result a := Prod.ext ha.symm (update_report hreport)
        have hmiddle := List.perm_middle.trans (ih.cons (result a))
        simpa [ha, hreport, hresult] using hmiddle
    · simpa [ha] using ih

end Update
end SendDataBuffer

inductive SendBufferEvent where
  | addData (data : SendingData)
  | getSlice (offset : SafeStreamRingIndex) (maxSize : ℕ)
  | confirm (offset : SafeStreamRingIndex)
  | reject (offset : SafeStreamRingIndex)
  | stop (offset : SafeStreamRingIndex)
  | setWindowSize (windowSize : ℕ)
  | update (id : ℕ)
deriving DecidableEq, Repr

structure SendBufferWorld where
  buffer : SendDataBuffer := {}
  windowSize : ℕ
  added : ℕ := 0
  reported : List (ℕ × SendingState) := []
deriving DecidableEq, Repr

namespace SendBufferWorld
open SendDataBuffer

def step (w : SendBufferWorld) : SendBufferEvent → Option SendBufferWorld
  | .addData data => some { w with buffer := w.buffer.addData w.added data, added := w.added + 1 }
  | .getSlice offset maxSize =>
    (w.buffer.getSlice w.windowSize offset maxSize).map fun slice => { w with buffer := slice.1 }
  | .confirm offset => some { w with buffer := w.buffer.confirm w.windowSize offset }
  | .reject offset => some { w with buffer := w.buffer.reject w.windowSize offset }
  | .stop offset => some { w with buffer := w.buffer.stop w.windowSize offset }
  | .setWindowSize windowSize => some { w with windowSize := windowSize }
  | .update id => some { w with
      buffer := (w.buffer.updateAction id).1
      reported := w.reported ++ (w.buffer.updateAction id).2 }

def SlicesFit (w : SendBufferWorld) : SendBufferEvent → Prop
  | .getSlice offset maxSize => w.buffer.NoGap w.windowSize offset maxSize
  | _ => True

instance (w : SendBufferWorld) : (e : SendBufferEvent) → Decidable (w.SlicesFit e)
  | .getSlice _ _ => inferInstanceAs (Decidable (NoGap ..))
  | .addData _ | .confirm _ | .reject _ | .stop _ | .setWindowSize _ | .update _ =>
    inferInstanceAs (Decidable True)

def inBuffer (w : SendBufferWorld) : List ℕ := w.buffer.writes.map Prod.fst

def outcomes (w : SendBufferWorld) : List (ℕ × SendingState) :=
  w.buffer.finished.map result ++ w.reported

/-- The size counts what is in the buffer, and each write that was added is there or has one
outcome, which its action reports when it is updated next. -/
structure Accounts (w : SendBufferWorld) : Prop where
  size : w.buffer.size = w.buffer.buffered
  once : (w.inBuffer ++ w.outcomes.map Prod.fst).Perm (List.range w.added)
  ended : ∀ o ∈ w.outcomes, Ended o.2
  unfinished : ∀ a ∈ w.buffer.sendActionViews, ¬ Ended a.state
  pending : ∀ a ∈ w.buffer.finished, a.changed = true

/-- A step gives an outcome to exactly the writes that leave the buffer in it, and it takes none
back. -/
structure GivesOutcomes (w w' : SendBufferWorld) : Prop where
  kept : ∀ o ∈ w.outcomes, o ∈ w'.outcomes
  given : ∀ i, (i ∈ w.inBuffer ∧ i ∉ w'.inBuffer) ↔
    (i ∉ w.outcomes.map Prod.fst ∧ i ∈ w'.outcomes.map Prod.fst)

section Steps
variable {w : SendBufferWorld}

theorem Accounts.addData (h : Accounts w) (data : SendingData) :
    Accounts { w with buffer := w.buffer.addData w.added data, added := w.added + 1 } := by
  refine ⟨Counted.addData h.size w.added data, ?_, h.ended, ?_, h.pending⟩
  · have hin : (w.buffer.addData w.added data).writes.map Prod.fst = w.inBuffer ++ [w.added] := by
      simp [inBuffer, writes, SendDataBuffer.addData]
    have hmove : (w.inBuffer ++ ([w.added] ++ w.outcomes.map Prod.fst)).Perm
        (w.inBuffer ++ (w.outcomes.map Prod.fst ++ [w.added])) :=
      List.perm_append_comm.append_left w.inBuffer
    have hold := h.once.append_right [w.added]
    change ((w.buffer.addData w.added data).writes.map Prod.fst ++ w.outcomes.map Prod.fst).Perm _
    rw [hin, List.range_succ, List.append_assoc]
    rw [List.append_assoc] at hold
    exact hmove.trans hold
  · intro a ha
    rcases List.mem_append.1 ha with ha | ha
    · exact h.unfinished a ha
    · rw [List.mem_singleton.1 ha]
      rintro (hs | hs | hs) <;> cases hs

theorem Accounts.of_writes {w' : SendBufferWorld} (h : Accounts w)
    (hwrites : w'.buffer.writes = w.buffer.writes)
    (hsize : w'.buffer.bufferSize = w.buffer.bufferSize) (hadded : w'.added = w.added)
    (houts : w'.outcomes.Perm w.outcomes)
    (hopen : ∀ a ∈ w'.buffer.sendActionViews, ¬ Ended a.state)
    (hpending : ∀ a ∈ w'.buffer.finished, a.changed = true) : Accounts w' := by
  refine ⟨Counted.of_writes h.size hwrites hsize, ?_, ?_, hopen, hpending⟩
  · rw [inBuffer, hwrites, hadded]
    exact ((houts.map Prod.fst).append_left w.inBuffer).trans h.once
  · intro o ho
    exact h.ended o (houts.mem_iff.1 ho)

theorem Accounts.getSlice (h : Accounts w) {offset : SafeStreamRingIndex} {maxSize : ℕ}
    {b : SendDataBuffer} {chunk : DataChunk}
    (hs : w.buffer.getSlice w.windowSize offset maxSize = some (b, chunk)) :
    Accounts { w with buffer := b } := by
  have hmarked := getSlice_marked hs
  obtain ⟨hsize, hfinished⟩ := getSlice_fields hs
  have houts : ({ w with buffer := b } : SendBufferWorld).outcomes = w.outcomes := by
    rw [outcomes, hfinished]
    rfl
  refine h.of_writes (map_of_marked hmarked) hsize rfl (houts ▸ .refl _) ?_ (hfinished ▸ h.pending)
  intro a ha
  rcases mem_of_marked hmarked a ha with ha | hs
  · exact h.unfinished a ha
  · rw [hs]
    rintro (hs | hs | hs) <;> cases hs

theorem Accounts.removeWhere (h : Accounts w) (p : SendingDataAction → Bool) {state : SendingState}
    (hs : Ended state) :
    Accounts { w with buffer := w.buffer.removeWhere p fun a => a.set state } := by
  have hresult : ∀ a : SendingDataAction, result (a.set state) = (a.id, state) := fun a =>
    Prod.ext (set_sendingData a state).1 (set_state a state)
  refine ⟨Counted.removeWhere h.size p _, ?_, ?_, ?_, ?_⟩
  · -- what was removed moves from the buffer to the outcomes
    have hsplit := (List.filter_append_perm p w.buffer.sendActionViews).map fun a => a.id
    rw [List.perm_iff_count]
    intro i
    have hold := h.once.count_eq i
    have hviews := hsplit.count_eq i
    simp only [inBuffer, outcomes, writes, SendDataBuffer.removeWhere, List.map_append,
      List.map_map, Function.comp_def, hresult, List.count_append] at hold hviews ⊢
    omega
  · intro o ho
    rcases List.mem_append.1 ho with ho | ho
    · obtain ⟨a, ha, rfl⟩ := List.mem_map.1 ho
      rcases List.mem_append.1 ha with ha | ha
      · exact h.ended _ (List.mem_append_left _ (List.mem_map_of_mem ha))
      · obtain ⟨c, -, rfl⟩ := List.mem_map.1 ha
        rw [hresult]
        exact hs
    · exact h.ended o (List.mem_append_right _ ho)
  · intro a ha
    exact h.unfinished a (List.mem_filter.1 ha).1
  · intro a ha
    rcases List.mem_append.1 ha with ha | ha
    · exact h.pending a ha
    · obtain ⟨c, hc, rfl⟩ := List.mem_map.1 ha
      have hopen := h.unfinished c (List.mem_filter.1 hc).1
      apply set_changed
      rintro rfl
      exact hopen hs

theorem outcomes_update (w : SendBufferWorld) (id : ℕ) :
    ((w.buffer.updateAction id).1.finished.map result ++
      (w.reported ++ (w.buffer.updateAction id).2)).Perm w.outcomes := by
  have hmove : ((w.buffer.updateAction id).1.finished.map result ++
      (w.reported ++ (w.buffer.updateAction id).2)).Perm
      ((w.buffer.updateAction id).1.finished.map result ++
        ((w.buffer.updateAction id).2 ++ w.reported)) := List.perm_append_comm.append_left _
  have hresults := (updateAction_results w.buffer id).append_right w.reported
  rw [List.append_assoc] at hresults
  exact hmove.trans hresults

theorem Accounts.update (h : Accounts w) (id : ℕ) :
    Accounts { w with
      buffer := (w.buffer.updateAction id).1
      reported := w.reported ++ (w.buffer.updateAction id).2 } := by
  refine h.of_writes (updateAction_writes w.buffer id) rfl rfl (outcomes_update w id) ?_ ?_
  · intro a ha
    obtain ⟨c, hc, rfl⟩ := List.mem_map.1 ha
    split_ifs
    · rw [(update_fields c).2.2]
      exact h.unfinished c hc
    · exact h.unfinished c hc
  · intro a ha
    obtain ⟨c, hc, rfl⟩ := List.mem_map.1 ha
    obtain ⟨hmem, hnone⟩ := List.mem_filter.1 hc
    by_cases hid : c.id = id
    · -- the action has an outcome to report, so it is not kept
      have hended := h.ended _ (List.mem_append_left _ (List.mem_map_of_mem hmem))
      have hsome := update_isSome (h.pending c hmem) hended
      simp only [if_pos hid, Option.isNone_iff_eq_none] at hnone
      rw [hnone] at hsome
      cases hsome
    · rw [if_neg hid]
      exact h.pending c hmem

theorem Accounts.step (h : Accounts w) {w' : SendBufferWorld} {e : SendBufferEvent}
    (hs : w.step e = some w') : Accounts w' := by
  cases e with
  | getSlice offset maxSize =>
    obtain ⟨slice, hslice, rfl⟩ := Option.map_eq_some_iff.1 hs
    exact h.getSlice hslice
  | addData data =>
    cases hs
    exact h.addData data
  | confirm offset =>
    cases hs
    exact h.removeWhere _ (.inl rfl)
  | reject offset =>
    cases hs
    exact h.removeWhere _ (.inr (.inl rfl))
  | stop offset =>
    cases hs
    exact h.removeWhere _ (.inr (.inr rfl))
  | setWindowSize windowSize =>
    cases hs
    exact ⟨h.size, h.once, h.ended, h.unfinished, h.pending⟩
  | update id =>
    cases hs
    exact h.update id

theorem step_of_slicesFit {e : SendBufferEvent} (he : w.SlicesFit e) :
    ∃ w', w.step e = some w' := by
  cases e with
  | getSlice offset maxSize =>
    obtain ⟨b, chunk, hs⟩ := getSlice_of_noGap he
    rw [SendBufferWorld.step, hs]
    exact ⟨_, rfl⟩
  | addData | confirm | reject | stop | setWindowSize | update => exact ⟨_, rfl⟩

theorem Accounts.start (windowSize : ℕ) : Accounts { windowSize := windowSize } := by
  refine ⟨rfl, .refl _, ?_, ?_, ?_⟩ <;> exact fun _ h => absurd h List.not_mem_nil

end Steps

section Outcomes
variable {w w' : SendBufferWorld} {e : SendBufferEvent} (hs : w.step e = some w')
include hs

theorem outcomes_step : ∀ o ∈ w.outcomes, o ∈ w'.outcomes := by
  have hremove : ∀ (p : SendingDataAction → Bool) (mark : SendingDataAction → SendingDataAction),
      ∀ o ∈ w.outcomes,
        o ∈ ({ w with buffer := w.buffer.removeWhere p mark } : SendBufferWorld).outcomes := by
    intro p mark o ho
    simp only [outcomes, SendDataBuffer.removeWhere, List.map_append, List.mem_append] at ho ⊢
    exact ho.imp_left .inl
  intro o ho
  cases e with
  | getSlice offset maxSize =>
    obtain ⟨slice, hslice, rfl⟩ := Option.map_eq_some_iff.1 hs
    rw [outcomes, (getSlice_fields hslice).2]
    exact ho
  | addData | setWindowSize =>
    cases hs
    exact ho
  | confirm | reject | stop =>
    cases hs
    exact hremove _ _ o ho
  | update id =>
    cases hs
    exact (outcomes_update w id).mem_iff.2 ho

theorem added_step : w'.added = w.added ∨
    w'.added = w.added + 1 ∧ w'.outcomes = w.outcomes := by
  cases e with
  | getSlice offset maxSize =>
    obtain ⟨slice, -, rfl⟩ := Option.map_eq_some_iff.1 hs
    exact .inl rfl
  | addData data =>
    cases hs
    exact .inr ⟨rfl, rfl⟩
  | confirm | reject | stop | setWindowSize | update =>
    cases hs
    exact .inl rfl

omit hs in
theorem Accounts.lt_added_iff (h : Accounts w) (i : ℕ) :
    i < w.added ↔ i ∈ w.inBuffer ∨ i ∈ w.outcomes.map Prod.fst := by
  rw [← List.mem_range, ← h.once.mem_iff, List.mem_append]

omit hs in
theorem Accounts.not_both (h : Accounts w) {i : ℕ} (hb : i ∈ w.inBuffer) :
    i ∉ w.outcomes.map Prod.fst := by
  intro ho
  have hnodup := h.once.nodup_iff.2 List.nodup_range
  exact (List.nodup_append.1 hnodup).2.2 i hb i ho rfl

theorem Accounts.givesOutcomes (h : Accounts w) : GivesOutcomes w w' := by
  have h' := h.step hs
  refine ⟨outcomes_step hs, ?_⟩
  intro i
  have hlt := h.lt_added_iff i
  have hlt' := h'.lt_added_iff i
  have hgrow := added_step hs
  constructor
  · rintro ⟨hin, hout⟩
    have hold : i < w.added := hlt.2 (.inl hin)
    have hnew : i < w'.added := by omega
    exact ⟨h.not_both hin, (hlt'.1 hnew).resolve_left hout⟩
  · rintro ⟨hnone, hgiven⟩
    refine ⟨?_, fun hin => h'.not_both hin hgiven⟩
    have hnew : i < w'.added := hlt'.2 (.inr hgiven)
    rcases hgrow with hsame | ⟨-, houts⟩
    · rw [hsame] at hnew
      exact (hlt.1 hnew).resolve_right hnone
    · rw [houts] at hgiven
      exact absurd hgiven hnone

end Outcomes

/-- In every run whose slices meet no gap the accounts are right, and every step of it gives
outcomes to the writes that leave the buffer. -/
theorem run_accounts (windowSize : ℕ) (events : List SendBufferEvent)
    (h : Runs.Along step SlicesFit { windowSize := windowSize } events) :
    ∃ w, Runs.run step { windowSize := windowSize } events = some w ∧ Accounts w ∧
      ∀ e w', w.step e = some w' → GivesOutcomes w w' := by
  obtain ⟨w, hrun, hw⟩ := Runs.run_invariant (I := Accounts)
    (fun w e hw he => by
      obtain ⟨w', hs⟩ := step_of_slicesFit he
      exact ⟨w', hs, hw.step hs⟩) (Accounts.start windowSize) h
  exact ⟨w, hrun, hw, fun _ _ hs => hw.givesOutcomes hs⟩

/-- Slices over the borders of the writes and past the last one, a confirm that comes twice, and a
reject and a stop at offsets that mean nothing. -/
theorem run_accounts_three_writes :
    ∃ w, Runs.run step { windowSize := 10 } [.addData ⟨.ofVal 5, [1, 2]⟩, .addData ⟨.ofVal 7, [3]⟩,
        .getSlice (.ofVal 6) 2, .addData ⟨.ofVal 8, [4]⟩, .getSlice (.ofVal 6) 9,
        .getSlice (.ofVal 30) 1, .confirm (.ofVal 7), .confirm (.ofVal 7), .reject (.ofVal 40000),
        .stop (.ofVal 0), .update 0, .update 0] = some w ∧ Accounts w ∧
      ∀ e w', w.step e = some w' → GivesOutcomes w w' :=
  run_accounts 10 _ (by decide)

/-- A write behind an empty one, and a slice from the empty one on. -/
theorem slice_behind_empty_write_undefined : ¬∀ (windowSize : ℕ) (events : List SendBufferEvent),
    ∃ w, Runs.run step { windowSize := windowSize } events = some w ∧ Accounts w := by
  intro hall
  obtain ⟨w, hrun, -⟩ := hall 10240 [.addData ⟨.ofVal 0, []⟩, .addData ⟨.ofVal 1, [1]⟩,
    .getSlice (.ofVal 0) 4]
  have hnone : Runs.run step { windowSize := 10240 } [.addData ⟨.ofVal 0, []⟩,
      .addData ⟨.ofVal 1, [1]⟩, .getSlice (.ofVal 0) 4] = none := by decide
  rw [hrun] at hnone
  cases hnone

end SendBufferWorld
end AetherClient
