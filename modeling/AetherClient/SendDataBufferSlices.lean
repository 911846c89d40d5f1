import AetherClient.SafeStreamSendingIntegrity

set_option autoImplicit false

namespace AetherClient
open Pieces

namespace SendDataBuffer

section Chain
variable {pre rest post : List SendingDataAction} {a : SendingDataAction}

theorem offset_of_chain (first : SendingDataAction) (hs : first :: rest = pre ++ a :: post)
    (hc : (first :: rest).IsChain fun a c => bytesEnd a = c.sendingData.offset.value) :
    first.sendingData.offset.value + (bytes pre).length = a.sendingData.offset.value := by
  induction pre generalizing first rest with
  | nil =>
    obtain ⟨rfl, rfl⟩ := List.cons.inj hs
    rfl
  | cons c pre ih =>
    obtain ⟨rfl, rfl⟩ := List.cons.inj hs
    cases pre with
    | nil =>
      have hnext := (List.isChain_cons_cons.1 hc).1
      simpa [bytes, bytesEnd] using hnext
    | cons d pre =>
      obtain ⟨hfd, hrest⟩ := List.isChain_cons_cons.1 hc
      have hnext := ih d rfl hrest
      rw [bytes_cons, List.length_append]
      unfold bytesEnd at hfd
      omega

theorem bytesEnd_of_chain (first : SendingDataAction) (hs : first :: rest = pre ++ a :: post)
    (hc : (first :: rest).IsChain fun a c => bytesEnd a = c.sendingData.offset.value) :
    bytesEnd a + (bytes post).length =
      first.sendingData.offset.value + (bytes (first :: rest)).length := by
  have hoff := offset_of_chain first hs hc
  rw [hs, bytes_append, bytes_cons, List.length_append, List.length_append]
  unfold bytesEnd
  omega

theorem drop_bytes_of_chain (first : SendingDataAction) (hs : first :: rest = pre ++ a :: post)
    (hc : (first :: rest).IsChain fun a c => bytesEnd a = c.sendingData.offset.value) {i : ℕ}
    (hi : a.sendingData.offset.value ≤ i) :
    (bytes (first :: rest)).drop (i - first.sendingData.offset.value) =
      (bytes (a :: post)).drop (i - a.sendingData.offset.value) := by
  have hoff := offset_of_chain first hs hc
  rw [hs, bytes_append, List.drop_append, List.drop_of_length_le (by omega), List.nil_append]
  congr 1
  omega

theorem length_drop_of_chain (first : SendingDataAction)
    (hc : (first :: rest).IsChain fun a c => bytesEnd a = c.sendingData.offset.value)
    {last : SendingDataAction} (hlast : last ∈ (first :: rest).getLast?) {i : ℕ}
    (hi : first.sendingData.offset.value ≤ i) :
    ((bytes (first :: rest)).drop (i - first.sendingData.offset.value)).length =
      bytesEnd last - i := by
  obtain ⟨front, hf⟩ := List.getLast?_eq_some_iff.1 hlast
  have hend := bytesEnd_of_chain first hf hc
  have hnil : (bytes ([] : List SendingDataAction)).length = 0 := rfl
  rw [List.length_drop]
  omega

end Chain

section Slice
variable {w : ℕ} {b : SendDataBuffer} {offset : SafeStreamRingIndex}

theorem inRange_iff_holds {a : SendingDataAction} (hw : w < 32768)
    (hstop : a.sendingData.stop ≤ 65535) (hne : a.sendingData.data ≠ [])
    (hlen : a.sendingData.data.length ≤ w) :
    (a.sendingData.getOffsetRange w).inRange offset = true ↔ a.sendingData.Holds offset.value := by
  have hspan : a.sendingData.stop = a.sendingData.offset.value + a.sendingData.data.length :=
    congrArg _ (span_of_ne_nil hne)
  have hpos := List.length_pos_iff.2 hne
  rw [SendingData.inRange_iff_positions (by omega) hstop]
  unfold SendingData.Holds
  omega

theorem hasByteIn_iff (a : SendingDataAction) (post : List SendingDataAction) (maxSize : ℕ)
    (hc : (a :: post).IsChain fun a c => bytesEnd a = c.sendingData.offset.value)
    (hne : ∀ c ∈ a :: post, c.sendingData.data ≠ []) (hm : 0 < maxSize)
    (ha : a.sendingData.Holds offset.value) {c : SendingDataAction} (hmem : c ∈ a :: post) :
    HasByteIn offset.value
        (((bytes (a :: post)).drop (offset.value - a.sendingData.offset.value)).take
          maxSize).length c ↔
      c.sendingData.offset.value < offset.value + maxSize := by
  obtain ⟨pre, rest, hs⟩ := List.append_of_mem hmem
  have hend := bytesEnd_of_chain a hs hc
  have hpos := List.length_pos_iff.2 (hne c hmem)
  have hself : offset.value < a.sendingData.offset.value + (bytes (a :: post)).length := by
    rw [bytes_cons, List.length_append]
    have hhi := ha.2
    omega
  -- a view after the first begins after the offset
  have hwhere : c = a ∨ offset.value < c.sendingData.offset.value := by
    rcases List.mem_cons.1 hmem with rfl | hpost
    · exact Or.inl rfl
    · have hafter := (List.pairwise_cons.1 (pairwise_of_chain hc)).1 c hpost
      have hhi := ha.2
      unfold bytesEnd at hafter
      exact Or.inr (by omega)
  rw [List.length_take, List.length_drop]
  obtain ⟨hlo, hhi⟩ := ha
  unfold bytesEnd at hend
  unfold HasByteIn SendingData.Holds
  constructor
  · rintro ⟨i, hi, _, hci, _⟩
    omega
  · intro hlt
    rcases hwhere with rfl | hgt
    · exact ⟨offset.value, by omega, Nat.le_refl _, hlo, hhi⟩
    · exact ⟨c.sendingData.offset.value, by omega, hgt.le, Nat.le_refl _, by omega⟩

theorem not_hasByteIn_of_before {pre post : List SendingDataAction} {a c : SendingDataAction}
    (hc : (pre ++ a :: post).IsChain fun a c => bytesEnd a = c.sendingData.offset.value)
    (ha : a.sendingData.Holds offset.value) (size : ℕ) (hmem : c ∈ pre) :
    ¬ HasByteIn offset.value size c := by
  rintro ⟨i, _, hoi, hi⟩
  have hle := (List.pairwise_append.1 (pairwise_of_chain hc)).2.2 c hmem a List.mem_cons_self
  have hlt := hi.2
  have hlo := ha.1
  unfold bytesEnd at hle
  omega

theorem map_hasByteIn {pre post : List SendingDataAction} {a : SendingDataAction} {maxSize : ℕ}
    (hc : (pre ++ a :: post).IsChain fun a c => bytesEnd a = c.sendingData.offset.value)
    (hne : ∀ c ∈ a :: post, c.sendingData.data ≠ []) (hm : 0 < maxSize)
    (ha : a.sendingData.Holds offset.value) :
    (pre ++ a :: post).map (fun c =>
        if HasByteIn offset.value (((bytes (a :: post)).drop
          (offset.value - a.sendingData.offset.value)).take maxSize).length c
        then c.sending else c) =
      pre ++ (a :: post).map fun c =>
        if c.sendingData.offset.value < offset.value + maxSize then c.sending else c := by
  rw [List.map_append]
  congr 1
  · refine (List.map_congr_left fun c hcm => if_neg ?_).trans (List.map_id _)
    exact not_hasByteIn_of_before hc ha _ hcm
  · refine List.map_congr_left fun c hcm => ?_
    rw [if_congr (hasByteIn_iff a post maxSize hc.right_of_append hne hm ha hcm) rfl rfl]

theorem exists_split_of_holds
    (hrange : ∀ c ∈ b.sendActionViews, ((c.sendingData.getOffsetRange w).inRange offset = true ↔
      c.sendingData.Holds offset.value))
    (ho : ∃ a ∈ b.sendActionViews, a.sendingData.Holds offset.value) :
    ∃ pre a post, b.sendActionViews = pre ++ a :: post ∧
      (∀ c ∈ pre, (c.sendingData.getOffsetRange w).inRange offset = false) ∧
      (a.sendingData.getOffsetRange w).inRange offset = true ∧
      a.sendingData.Holds offset.value := by
  rcases split_at_first (fun a => (a.sendingData.getOffsetRange w).inRange offset)
      b.sendActionViews with ⟨_, _, hall⟩ | ⟨pre, a, post, hl, _, _, hpre, hin⟩
  · obtain ⟨a, ha, hold⟩ := ho
    have hout := hall a ha
    rw [(hrange a ha).2 hold] at hout
    cases hout
  · have ha : a ∈ b.sendActionViews := by
      rw [hl]
      exact List.mem_append_right _ List.mem_cons_self
    exact ⟨pre, a, post, hl, hpre, hin, (hrange a ha).1 hin⟩

/-- A slice holds what the concatenated writes hold from the offset on, up to the limit or the
end of the last write, and the writes that it takes a byte from are marked. -/
theorem getSlice_takes_stream_bytes (w maxSize : ℕ) (b : SendDataBuffer)
    (offset : SafeStreamRingIndex) (first : SendingDataAction) (rest : List SendingDataAction)
    (hviews : b.sendActionViews = first :: rest) (hw : w < 32768) (hm : 0 < maxSize)
    (hc : b.Consecutive) (hne : ∀ a ∈ b.sendActionViews, a.sendingData.data ≠ [])
    (hlen : ∀ a ∈ b.sendActionViews, a.sendingData.data.length ≤ w)
    (hb : ∀ a ∈ b.sendActionViews, a.sendingData.stop ≤ 65535)
    (ho : ∃ a ∈ b.sendActionViews, a.sendingData.Holds offset.value) :
    let data := ((bytes b.sendActionViews).drop
      (offset.value - first.sendingData.offset.value)).take maxSize
    let marked := b.sendActionViews.map fun a =>
      if HasByteIn offset.value data.length a then a.sending else a
    getSlice w b offset maxSize = some ({ b with sendActionViews := marked }, ⟨data, offset⟩) ∧
      ∀ last ∈ b.sendActionViews.getLast?,
        data.length = min maxSize (last.sendingData.stop - offset.value) := by
  have hrange : ∀ c ∈ b.sendActionViews,
      ((c.sendingData.getOffsetRange w).inRange offset = true ↔
        c.sendingData.Holds offset.value) := fun c hc =>
    inRange_iff_holds hw (hb c hc) (hne c hc) (hlen c hc)
  have hchain : (first :: rest).IsChain fun a c => bytesEnd a = c.sendingData.offset.value := by
    rw [← hviews]
    exact hc
  obtain ⟨pre, a, post, hl, hpre, hin, hhold⟩ := exists_split_of_holds hrange ho
  have hsplit : first :: rest = pre ++ a :: post := hviews.symm.trans hl
  have hoff := offset_of_chain first hsplit hchain
  have hmem : ∀ c ∈ a :: post, c ∈ b.sendActionViews := by
    intro c hc
    rw [hl]
    exact List.mem_append_right _ hc
  have hdata := drop_bytes_of_chain first hsplit hchain hhold.1
  rw [← hviews] at hdata
  dsimp only
  refine ⟨?_, ?_⟩
  · rw [hdata]
    rw [hsplit] at hchain
    have hspec := sliceFrom_marks a post offset (offset.value - a.sendingData.offset.value) maxSize
      hchain.right_of_append
      (fun c hc => by
        have hs := hb c (hmem c hc)
        have hspan := length_le_span c.sendingData.data
        have hle := hlen c (hmem c hc)
        unfold SendingData.stop at hs
        unfold bytesEnd
        omega)
      (by have := hhold.2; omega) (by have := hhold.1; omega) hm
    have hmarks := map_hasByteIn hchain (fun c hc => hne c (hmem c hc)) hm hhold
    rw [← hl] at hmarks
    rw [hmarks, getSlice_of_split hl hpre hin, hspec, Option.map_some]
  · intro last hlast
    have hspan : last.sendingData.stop = bytesEnd last :=
      congrArg _ (span_of_ne_nil (hne last (List.mem_of_getLast? hlast)))
    have hlo := hhold.1
    rw [hviews] at hlast ⊢
    rw [List.length_take, length_drop_of_chain first hchain hlast (by omega), hspan]

/-- From the last byte of the first write the slice goes on in the second one; the third one is
not touched. -/
theorem getSlice_takes_stream_bytes_across :
    ∃ b', getSlice 10240 { sendActionViews := [⟨0, ⟨.ofVal 5, [1, 2]⟩, .waiting, true⟩,
        ⟨1, ⟨.ofVal 7, [3]⟩, .waiting, true⟩, ⟨2, ⟨.ofVal 8, [4]⟩, .waiting, true⟩] }
        (.ofVal 6) 2 = some (b', ⟨[2, 3], .ofVal 6⟩) ∧
      b'.sendActionViews.map SendingDataAction.state = [.sending, .sending, .waiting] := by
  have h := getSlice_takes_stream_bytes 10240 2
    { sendActionViews := [⟨0, ⟨.ofVal 5, [1, 2]⟩, .waiting, true⟩,
        ⟨1, ⟨.ofVal 7, [3]⟩, .waiting, true⟩, ⟨2, ⟨.ofVal 8, [4]⟩, .waiting, true⟩] } (.ofVal 6)
    _ _ rfl (by decide) (by decide) (by decide) (by decide) (by decide) (by decide) (by decide)
  exact ⟨_, h.1, by decide⟩

end Slice
end SendDataBuffer
end AetherClient
