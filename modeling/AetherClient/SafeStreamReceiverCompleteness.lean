import AetherClient.SafeStreamReceiverRuns

set_option autoImplicit false

namespace AetherClient
open Pieces Runs

def Covers (chunks : List ReceivingChunk) (i : ℕ) : Prop :=
  ∃ ch ∈ chunks, ch.offset.value ≤ i ∧ i < ch.stop

instance (chunks : List ReceivingChunk) (i : ℕ) : Decidable (Covers chunks i) :=
  inferInstanceAs (Decidable (∃ ch ∈ chunks, _))

theorem Covers.mono {chunks chunks' : List ReceivingChunk} {i : ℕ} (h : Covers chunks i)
    (hs : ∀ ch ∈ chunks, ch ∈ chunks') : Covers chunks' i := by
  obtain ⟨ch, hch, hi⟩ := h
  exact ⟨ch, hs ch hch, hi⟩

namespace SafeStreamReceiving

/-- The stored chunks: sorted, disjoint ones from `confirmed` on, then stale ones that
lie almost a ring behind. -/
structure Layout (w confirmed : ℕ) (chunks fresh stale : List ReceivingChunk) : Prop where
  split : chunks = fresh ++ stale
  sorted : fresh.Pairwise fun a b => a.stop ≤ b.offset.value
  ahead : ∀ ch ∈ fresh, confirmed ≤ ch.offset.value ∧ ch.offset.value < confirmed + w
  behind : ∀ ch ∈ stale, ch.offset.value + (65535 - w) < confirmed ∧ ch.stop ≤ confirmed

/-- The chunk starts inside no stored chunk, and what it holds past the end of a stored
chunk that starts inside it is stored already. -/
def FitsBetween (chunks : List ReceivingChunk) (chunk : ReceivingChunk) : Prop :=
  ∀ ch ∈ chunks, ¬ (ch.offset.value < chunk.offset.value ∧ chunk.offset.value < ch.stop) ∧
    (chunk.offset.value ≤ ch.offset.value → ∀ i < chunk.stop, ch.stop ≤ i → Covers chunks i)

instance (chunks : List ReceivingChunk) (chunk : ReceivingChunk) :
    Decidable (FitsBetween chunks chunk) :=
  inferInstanceAs (Decidable (∀ ch ∈ chunks, _))

section Search
variable {w confirmed : ℕ} {chunk ch : ReceivingChunk}

theorem notBefore_iff_fresh (hw : w < 32768)
    (hc : confirmed ≤ chunk.offset.value ∧ chunk.offset.value < confirmed + w)
    (h : confirmed ≤ ch.offset.value ∧ ch.offset.value < confirmed + w) :
    notBefore w chunk.offset ch = true ↔ chunk.offset.value ≤ ch.offset.value := by
  rw [notBefore, decide_eq_true_eq, RingIndex.distance_le_iff _ _ _ (by omega)]
  omega

theorem notBefore_of_stale (hw : w < 32768) (hc : confirmed ≤ chunk.offset.value)
    (h : ch.offset.value + (65535 - w) < confirmed) : notBefore w chunk.offset ch = true := by
  rw [notBefore, decide_eq_true_eq, RingIndex.distance_le_iff _ _ _ (by omega)]
  omega

theorem not_notBefore_of_ahead (hw : w < 32768)
    (hc : chunk.offset.value + (65535 - w) < confirmed) (h : confirmed ≤ ch.offset.value) :
    notBefore w chunk.offset ch = false := by
  rw [notBefore, decide_eq_false_iff_not, RingIndex.distance_le_iff _ _ _ (by omega)]
  omega

theorem trimTo_front (w : ℕ) (chunk it : ReceivingChunk) (hw : w < 32768)
    (hend : chunk.stop < 65535) (hlt : chunk.offset.value < it.offset.value)
    (hnear : it.offset.value ≤ chunk.offset.value + w) (hover : chunk.stop ≤ it.offset.value + w) :
    trimTo w chunk it =
      some ⟨chunk.offset, chunk.data.take (it.offset.value - chunk.offset.value)⟩ := by
  have hnext := chunk.next_value hend
  have hsize := RingIndex.distance_of_le hlt.le
  unfold ReceivingChunk.stop at hend hover hnext
  unfold trimTo
  dsimp only
  rcases Nat.lt_or_ge it.offset.value (chunk.offset.value + chunk.data.length) with h | h
  · rw [RingIndex.distance_of_le (by omega), hnext, hsize, if_pos (by omega), if_pos (by omega)]
  · have hn : ¬ (0 < it.offset.distance (chunk.offset + toUint16 chunk.data.length) ∧
        it.offset.distance (chunk.offset + toUint16 chunk.data.length) ≤ w) := by
      rw [RingIndex.distance_le_iff _ _ _ (by omega)]
      rcases Nat.eq_or_lt_of_le h with he | hl
      · rw [RingIndex.distance_of_le (by omega)]
        omega
      · omega
    rw [if_neg hn, List.take_of_length_le (by omega)]

theorem trimTo_stale (w : ℕ) (chunk it : ReceivingChunk) (hw : w < 32768)
    (hend : chunk.stop < 65535) (hfar : it.offset.value + (65535 - w) < chunk.offset.value) :
    trimTo w chunk it = some chunk := by
  have hnext := chunk.next_value hend
  unfold ReceivingChunk.stop at hend hnext
  unfold trimTo
  dsimp only
  rw [RingIndex.distance_of_le (by omega), hnext, if_neg (by omega)]

end Search

section Insert
variable {w confirmed : ℕ} {fresh stale : List ReceivingChunk} {chunk : ReceivingChunk}
  {r : SafeStreamReceiving}

theorem search_split {skipped rest : List ReceivingChunk} {it : ReceivingChunk} (hw : w < 32768)
    (hl : Layout w confirmed r.receivedDataChunks fresh stale)
    (hc : confirmed ≤ chunk.offset.value)
    (hs : r.receivedDataChunks = skipped ++ it :: rest)
    (hskip : ∀ ch ∈ skipped, notBefore w chunk.offset ch = false) :
    (∃ later, fresh = skipped ++ it :: later ∧ rest = later ++ stale) ∨
      (skipped = fresh ∧ stale = it :: rest) := by
  have he : fresh ++ stale = skipped ++ it :: rest := hl.split.symm.trans hs
  rcases List.append_eq_append_iff.1 he with ⟨mid, hmid, hst⟩ | ⟨mid, hmid, hst⟩
  · cases mid with
    | nil =>
      right
      exact ⟨by simpa using hmid, by simpa using hst⟩
    | cons x mid =>
      -- a stale chunk in the skipped part contradicts the search
      have hx : x ∈ stale := by
        rw [hst]
        exact List.mem_cons_self
      have hb := notBefore_of_stale hw hc (hl.behind x hx).1
      have hn := hskip x (by rw [hmid]; simp)
      rw [hb] at hn
      cases hn
  · cases mid with
    | nil =>
      right
      exact ⟨by simpa using hmid.symm, by simpa using hst.symm⟩
    | cons x mid =>
      left
      simp only [List.cons_append, List.cons.injEq] at hst
      obtain ⟨rfl, hrest⟩ := hst
      exact ⟨mid, hmid, hrest⟩

theorem Layout.insert {chunks front back : List ReceivingChunk} {inserted : ReceivingChunk}
    (hl : Layout w confirmed chunks (front ++ back) stale)
    (hc : confirmed ≤ inserted.offset.value ∧ inserted.offset.value < confirmed + w)
    (hfront : ∀ ch ∈ front, ch.stop ≤ inserted.offset.value)
    (hback : ∀ ch ∈ back, inserted.stop ≤ ch.offset.value) :
    Layout w confirmed (front ++ inserted :: (back ++ stale)) (front ++ inserted :: back)
      stale := by
  obtain ⟨hf, hb, hfb⟩ := List.pairwise_append.1 hl.sorted
  refine ⟨by simp, ?_, ?_, hl.behind⟩
  · refine List.pairwise_append.2 ⟨hf, List.pairwise_cons.2 ⟨hback, hb⟩, ?_⟩
    intro a ha b hb'
    rcases List.mem_cons.1 hb' with rfl | hb'
    · exact hfront a ha
    · exact hfb a ha b hb'
  · intro ch hch
    rcases List.mem_append.1 hch with h | h
    · exact hl.ahead ch (List.mem_append_left _ h)
    · rcases List.mem_cons.1 h with rfl | h
      · exact hc
      · exact hl.ahead ch (List.mem_append_right _ h)

theorem Layout.insert_cut {chunks front later : List ReceivingChunk} {it : ReceivingChunk}
    (hl : Layout w confirmed chunks (front ++ it :: later) stale)
    (hc : confirmed ≤ chunk.offset.value ∧ chunk.offset.value < confirmed + w)
    (hfront : ∀ ch ∈ front, ch.stop ≤ chunk.offset.value) :
    let cut : ReceivingChunk :=
      ⟨chunk.offset, chunk.data.take (it.offset.value - chunk.offset.value)⟩
    chunk.offset.value < it.offset.value →
      Layout w confirmed (front ++ cut :: (it :: later ++ stale)) (front ++ cut :: it :: later)
        stale := by
  intro cut hlt
  have hcut : cut.stop ≤ it.offset.value := by
    change chunk.offset.value + (chunk.data.take _).length ≤ _
    rw [List.length_take]
    omega
  suffices hback : ∀ ch ∈ it :: later, cut.stop ≤ ch.offset.value from hl.insert hc hfront hback
  intro ch hch
  rcases List.mem_cons.1 hch with rfl | hch
  · exact hcut
  · have hthen := (List.pairwise_cons.1 (List.pairwise_append.1 hl.sorted).2.1).1 ch hch
    unfold ReceivingChunk.stop at hthen
    omega

theorem Layout.covers_fresh {chunks : List ReceivingChunk} {i : ℕ}
    (hl : Layout w confirmed chunks fresh stale) (hi : confirmed ≤ i) (h : Covers chunks i) :
    Covers fresh i := by
  obtain ⟨ch, hch, hlo, hhi⟩ := h
  rw [hl.split] at hch
  rcases List.mem_append.1 hch with hch | hch
  · exact ⟨ch, hch, hlo, hhi⟩
  · have := (hl.behind ch hch).2
    omega

theorem Layout.stop_le_of_skipped {ch : ReceivingChunk} (hw : w < 32768)
    (hl : Layout w confirmed r.receivedDataChunks fresh stale)
    (hc : confirmed ≤ chunk.offset.value ∧ chunk.offset.value < confirmed + w)
    (hfit : FitsBetween r.receivedDataChunks chunk) (hch : ch ∈ fresh)
    (hn : notBefore w chunk.offset ch = false) : ch.stop ≤ chunk.offset.value := by
  have hlt : ¬ chunk.offset.value ≤ ch.offset.value := by
    rw [← notBefore_iff_fresh hw hc (hl.ahead ch hch), hn]
    exact Bool.false_ne_true
  have hno := (hfit ch (hl.split ▸ List.mem_append_left _ hch)).1
  omega

theorem Layout.append {chunks : List ReceivingChunk}
    (hl : Layout w confirmed chunks fresh stale)
    (hc : confirmed ≤ chunk.offset.value ∧ chunk.offset.value < confirmed + w)
    (hfront : ∀ ch ∈ fresh, ch.stop ≤ chunk.offset.value) :
    Layout w confirmed (fresh ++ chunk :: stale) (fresh ++ [chunk]) stale ∧
      ∀ i, Covers fresh i ∨ Covers [chunk] i → Covers (fresh ++ [chunk]) i := by
  refine ⟨?_, ?_⟩
  · have hl' : Layout w confirmed chunks (fresh ++ []) stale := by simpa using hl
    exact hl'.insert hc hfront fun ch hch => by cases hch
  · rintro i (h | h)
    · exact h.mono fun ch hch => List.mem_append_left _ hch
    · exact h.mono fun ch hch => List.mem_append_right _ hch

theorem Layout.stale_eq_nil {chunks : List ReceivingChunk} (hw : w < 32768)
    (hl : Layout w confirmed chunks fresh stale) (hc : confirmed ≤ chunk.offset.value)
    (hall : ∀ ch ∈ chunks, notBefore w chunk.offset ch = false) : stale = [] := by
  cases hst : stale with
  | nil => rfl
  | cons x tail =>
    have hx : x ∈ stale := by simp [hst]
    have hn := hall x (by rw [hl.split]; exact List.mem_append_right _ hx)
    rw [notBefore_of_stale hw hc (hl.behind x hx).1] at hn
    cases hn

theorem Layout.covers_insert_cut {chunks front later : List ReceivingChunk} {it : ReceivingChunk}
    (hl : Layout w confirmed chunks (front ++ it :: later) stale)
    (hc : confirmed ≤ chunk.offset.value) (hlt : chunk.offset.value < it.offset.value)
    (hpast : ∀ i < chunk.stop, it.stop ≤ i → Covers chunks i) {i : ℕ}
    (h : Covers (front ++ it :: later) i ∨ Covers [chunk] i) :
    Covers (front ++ ⟨chunk.offset, chunk.data.take (it.offset.value - chunk.offset.value)⟩ ::
      it :: later) i := by
  have hold : ∀ i, Covers (front ++ it :: later) i → Covers (front ++
      ⟨chunk.offset, chunk.data.take (it.offset.value - chunk.offset.value)⟩ :: it :: later) i := by
    intro i h
    apply h.mono
    intro ch hch
    simp only [List.mem_append, List.mem_cons] at hch ⊢
    tauto
  rcases h with h | ⟨ch, hch, hlo, hhi⟩
  · exact hold i h
  rw [List.mem_singleton.1 hch] at hlo hhi
  rcases Nat.lt_or_ge i it.offset.value with h | h
  · refine ⟨_, List.mem_append_right _ List.mem_cons_self, hlo, ?_⟩
    unfold ReceivingChunk.stop at hhi ⊢
    dsimp only
    rw [List.length_take]
    omega
  rcases Nat.lt_or_ge i it.stop with h' | h'
  · exact hold i ⟨it, by simp, h, h'⟩
  · exact hold i (hl.covers_fresh (by omega) (hpast i hhi h'))

theorem addDataChunk_fresh (hw : w < 32768)
    (hl : Layout w confirmed r.receivedDataChunks fresh stale) (hend : chunk.stop < 65535)
    (hc : confirmed ≤ chunk.offset.value ∧ chunk.offset.value < confirmed + w)
    (hstop : chunk.stop ≤ confirmed + w) (hfit : FitsBetween r.receivedDataChunks chunk) :
    ∃ r' fresh', addDataChunk w r chunk = some r' ∧
      Layout w confirmed r'.receivedDataChunks fresh' stale ∧
      ∀ i, Covers fresh i ∨ Covers [chunk] i → Covers fresh' i := by
  have hmem : ∀ ch ∈ fresh, ch ∈ r.receivedDataChunks := by
    intro ch hch
    rw [hl.split]
    exact List.mem_append_left _ hch
  rcases addDataChunk_cases w r chunk with
    ⟨hall, he⟩ | ⟨skipped, it, rest, hs, hskip, hit, hcase⟩
  · obtain ⟨hlay, hcov⟩ := hl.append hc fun ch hch =>
      hl.stop_le_of_skipped hw hc hfit hch (hall ch (hmem ch hch))
    refine ⟨_, _, he, ?_, hcov⟩
    have hstale := hl.stale_eq_nil hw hc.1 hall
    dsimp only
    rw [hl.split, hstale, List.append_nil]
    rwa [hstale] at hlay
  rcases search_split hw hl hc.1 hs hskip with ⟨later, rfl, rfl⟩ | ⟨rfl, rfl⟩
  · have hitf : it ∈ skipped ++ it :: later := by simp
    have hle := (notBefore_iff_fresh hw hc (hl.ahead it hitf)).1 hit
    have hpast := (hfit it (hmem it hitf)).2 hle
    rcases hcase with ⟨heq, he⟩ | ⟨hne, he⟩
    · -- a chunk with this offset is stored
      refine ⟨r, _, he, hl, ?_⟩
      rintro i (h | ⟨ch, hch, hlo, hhi⟩)
      · exact h
      · rw [List.mem_singleton.1 hch] at hlo hhi
        rcases Nat.lt_or_ge i it.stop with h | h
        · exact ⟨it, hitf, by rwa [← heq], h⟩
        · exact hl.covers_fresh (by omega) (hpast i hhi h)
    · have hlt : chunk.offset.value < it.offset.value :=
        lt_of_le_of_ne hle fun h => hne (RingIndex.ext h)
      obtain ⟨hlow, hhigh⟩ := hl.ahead it hitf
      rw [trimTo_front w chunk it hw hend hlt (by omega) (by omega)] at he
      have hnew := hl.insert_cut hc (fun ch hch =>
        hl.stop_le_of_skipped hw hc hfit (List.mem_append_left _ hch) (hskip ch hch)) hlt
      exact ⟨_, _, he, hnew, fun i h => hl.covers_insert_cut hc.1 hlt hpast h⟩
  · -- the first chunk not before the piece is stale
    have hfar := (hl.behind it List.mem_cons_self).1
    rcases hcase with ⟨heq, _⟩ | ⟨_, he⟩
    · rw [heq] at hc
      omega
    · rw [trimTo_stale w chunk it hw hend (by omega)] at he
      obtain ⟨hlay, hcov⟩ := hl.append hc fun ch hch =>
        hl.stop_le_of_skipped hw hc hfit hch (hskip ch hch)
      exact ⟨_, _, he, hlay, hcov⟩

theorem addDataChunk_stale (hw : w < 32768)
    (hl : Layout w confirmed r.receivedDataChunks fresh stale) (hd : chunk.data ≠ [])
    (hend : chunk.stop < 65535)
    (hc : chunk.offset.value + (65535 - w) < confirmed) (hstop : chunk.stop ≤ confirmed) :
    ∃ r' stale', addDataChunk w r chunk = some r' ∧
      Layout w confirmed r'.receivedDataChunks fresh stale' := by
  have hbehind : ∀ n, chunk.offset.value + (65535 - w) < confirmed ∧
      ReceivingChunk.stop ⟨chunk.offset, chunk.data.take n⟩ ≤ confirmed := by
    intro n
    refine ⟨hc, ?_⟩
    unfold ReceivingChunk.stop at hstop ⊢
    dsimp only
    rw [List.length_take]
    omega
  rcases addDataChunk_cases w r chunk with
    ⟨_, he⟩ | ⟨skipped, it, rest, hs, hskip, hit, ⟨_, he⟩ | ⟨hne, he⟩⟩
  · refine ⟨_, stale ++ [chunk], he, ?_, hl.sorted, hl.ahead, ?_⟩
    · simp [hl.split]
    · intro ch hch
      rcases List.mem_append.1 hch with h | h
      · exact hl.behind ch h
      · rw [List.mem_singleton.1 h]
        exact ⟨hc, hstop⟩
  · exact ⟨r, stale, he, hl⟩
  · obtain ⟨n, _, ht⟩ := trimTo_spec w chunk it hw hd hend hit hne
    rw [ht] at he
    have hit' : it ∉ fresh := by
      intro h
      rw [not_notBefore_of_ahead hw hc (hl.ahead it h).1] at hit
      cases hit
    -- the search passes all fresh chunks
    obtain ⟨mid, rfl, hmid⟩ : ∃ mid, skipped = fresh ++ mid ∧ stale = mid ++ it :: rest := by
      rcases List.append_eq_append_iff.1 (hl.split.symm.trans hs) with h | ⟨mid, hf, hst⟩
      · exact h
      · cases mid with
        | nil => exact ⟨[], by simpa using hf.symm, by simpa using hst.symm⟩
        | cons x mid =>
          rw [List.cons_append, List.cons.injEq] at hst
          rw [hf, hst.1] at hit'
          simp at hit'
    refine ⟨_, mid ++ ⟨chunk.offset, chunk.data.take n⟩ :: it :: rest, he, by simp, hl.sorted,
      hl.ahead, ?_⟩
    intro ch hch
    rw [List.mem_append, List.mem_cons] at hch
    rcases hch with h | rfl | h
    · exact hl.behind ch (by rw [hmid]; exact List.mem_append_left _ h)
    · exact hbehind n
    · exact hl.behind ch (by rw [hmid]; exact List.mem_append_right _ h)

end Insert

section Deliver
variable {w confirmed : ℕ} {fresh stale : List ReceivingChunk}

theorem splitChain_bounds (chunks : List ReceivingChunk) (next : SafeStreamRingIndex)
    (hp : ∀ ch ∈ chunks, ch.stop < 65535) :
    let chain := (splitChain next chunks).1
    let last := (splitChain next chunks).2.2
    next.value ≤ last.value ∧
      (∀ ch ∈ chain, next.value ≤ ch.offset.value ∧ ch.stop ≤ last.value) ∧
      (last = next ∨ ∃ ch ∈ chain, ch.stop = last.value) := by
  induction chunks generalizing next with
  | nil => exact ⟨le_refl _, fun ch hch => (List.not_mem_nil hch).elim, Or.inl rfl⟩
  | cons chunk chunks ih =>
    by_cases he : next = chunk.offset
    · have hnext := chunk.next_value (hp chunk List.mem_cons_self)
      obtain ⟨hle, hchain, hlast⟩ := ih (chunk.offset + toUint16 chunk.data.length)
        fun ch hch => hp ch (List.mem_cons_of_mem _ hch)
      have hstart : chunk.offset.value ≤ chunk.stop := Nat.le_add_right _ _
      simp only [splitChain, if_pos he]
      rw [he]
      refine ⟨by omega, ?_, Or.inr ?_⟩
      · intro ch hch
        rcases List.mem_cons.1 hch with rfl | hch
        · exact ⟨le_refl _, by omega⟩
        · have := hchain ch hch
          exact ⟨by omega, this.2⟩
      · rcases hlast with hl | ⟨ch, hch, hs⟩
        · exact ⟨chunk, List.mem_cons_self, by rw [hl, hnext]⟩
        · exact ⟨ch, List.mem_cons_of_mem _ hch, hs⟩
    · simp only [splitChain, if_neg he]
      exact ⟨le_refl _, fun ch hch => (List.not_mem_nil hch).elim, Or.inl trivial⟩

theorem Layout.deliver {chunks : List ReceivingChunk} {next : SafeStreamRingIndex}
    (hl : Layout w next.value chunks fresh stale) (hp : ∀ ch ∈ chunks, ch.stop < 65535)
    (hsplit : chunks = (splitChain next chunks).1 ++ (splitChain next chunks).2.1) :
    ∃ later, fresh = (splitChain next chunks).1 ++ later ∧
      Layout w (splitChain next chunks).2.2.value (splitChain next chunks).2.1 later stale := by
  obtain ⟨hle, hchain, hlast⟩ := splitChain_bounds chunks next hp
  obtain ⟨later, hf, hrest⟩ : ∃ later, fresh = (splitChain next chunks).1 ++ later ∧
      (splitChain next chunks).2.1 = later ++ stale := by
    rcases List.append_eq_append_iff.1 (hl.split.symm.trans hsplit) with ⟨mid, hc, hst⟩ | h
    · cases mid with
      | nil => exact ⟨[], by simpa using hc.symm, by simpa using hst.symm⟩
      | cons x mid =>
        -- a stale chunk starts before the chain does
        have hx := (hl.behind x (by rw [hst]; exact List.mem_cons_self)).1
        have hx' := (hchain x (by rw [hc]; simp)).1
        omega
    · exact h
  refine ⟨later, hf, hrest, ?_, ?_, ?_⟩
  · have hs := hl.sorted
    rw [hf] at hs
    exact (List.pairwise_append.1 hs).2.1
  · intro ch hch
    obtain ⟨hlo, hhi⟩ := hl.ahead ch (by rw [hf]; exact List.mem_append_right _ hch)
    refine ⟨?_, by omega⟩
    rcases hlast with he | ⟨before, hb, hs⟩
    · rw [he]
      exact hlo
    · rw [← hs]
      have hsorted := hl.sorted
      rw [hf] at hsorted
      exact (List.pairwise_append.1 hsorted).2.2 before hb ch hch
  · intro ch hch
    have := hl.behind ch hch
    omega

theorem Layout.not_covers {chunks : List ReceivingChunk} {next : SafeStreamRingIndex}
    (hl : Layout w next.value chunks fresh stale) (hd : ∀ ch ∈ fresh, ch.data ≠ [])
    (hhead : ∀ ch, chunks.head? = some ch → ch.offset ≠ next) :
    ¬ Covers fresh next.value := by
  rintro ⟨ch, hch, hlo, _⟩
  have heq : ch.offset.value = next.value := le_antisymm hlo (hl.ahead ch hch).1
  cases hf : fresh with
  | nil => simp [hf] at hch
  | cons first later =>
    have hne := hhead first (by rw [hl.split, hf]; rfl)
    have hfirst := (hl.ahead first (by simp [hf])).1
    rw [hf] at hch
    rcases List.mem_cons.1 hch with rfl | hch
    · exact hne (RingIndex.ext heq)
    · have hs := hl.sorted
      rw [hf] at hs
      have hstop := (List.pairwise_cons.1 hs).1 ch hch
      have hpos := List.length_pos_iff.2 (hd first (by simp [hf]))
      unfold ReceivingChunk.stop at hstop
      omega

end Deliver

def Holds (w : ℕ) (r : SafeStreamReceiving) (accepted : List ReceivingChunk) : Prop :=
  ∃ fresh stale, Layout w r.lastConfirmedOffset.value r.receivedDataChunks fresh stale ∧
    ∀ i, Covers accepted i → i < r.lastConfirmedOffset.value ∨ Covers fresh i

section Handlers
variable {config : SafeStreamConfig} {stream received : DataBuffer} {r : SafeStreamReceiving}
  {accepted : List ReceivingChunk}

theorem update_holds_elapsed (hlen : stream.length < 65535) (hi : Inv stream r received)
    (h : Holds config.windowSize r accepted) (t : TimePoint)
    (ht : r.lastSendConfirmTime + config.sendConfirmTimeout ≤ t) :
    Holds config.windowSize (update config r t).1 accepted ∧
      ¬ Covers accepted (update config r t).1.lastConfirmedOffset.value := by
  obtain ⟨fresh, stale, hl, hcov⟩ := h
  obtain ⟨_, hchunks, hlast, _⟩ := update_spec config r t
  obtain ⟨_, hchunks', hlast', _⟩ := checkCompletedChains_elapsed config (r := r) t ht
  obtain ⟨hsplit, _, _, _, hhead⟩ :=
    splitChain_spec hlen r.receivedDataChunks r.lastConfirmedOffset hi.confirmed_le hi.pieces
  have hp : ∀ ch ∈ r.receivedDataChunks, ch.stop < 65535 := fun ch hch =>
    (hi.pieces ch hch).end_le.trans_lt hlen
  obtain ⟨hle, hchain, _⟩ := splitChain_bounds r.receivedDataChunks r.lastConfirmedOffset hp
  obtain ⟨later, hf, hl'⟩ := hl.deliver hp hsplit
  have hcov' : ∀ i, Covers accepted i →
      i < (splitChain r.lastConfirmedOffset r.receivedDataChunks).2.2.value ∨ Covers later i := by
    intro i hacc
    rcases hcov i hacc with h | ⟨ch, hch, hlo, hhi⟩
    · left
      omega
    · rw [hf] at hch
      rcases List.mem_append.1 hch with hch | hch
      · left
        have := (hchain ch hch).2
        omega
      · exact Or.inr ⟨ch, hch, hlo, hhi⟩
  have hd : ∀ ch ∈ later, ch.data ≠ [] := by
    intro ch hch
    apply (hi.pieces ch _).1
    rw [hl.split, hf]
    simp [hch]
  rw [Holds, hchunks, hlast, hchunks', hlast']
  refine ⟨⟨later, stale, hl', hcov'⟩, ?_⟩
  intro hacc
  rcases hcov' _ hacc with h | h
  · omega
  · exact hl'.not_covers hd hhead h

theorem update_holds (hlen : stream.length < 65535) (hi : Inv stream r received)
    (h : Holds config.windowSize r accepted) (t : TimePoint) :
    Holds config.windowSize (update config r t).1 accepted := by
  by_cases ht : t < r.lastSendConfirmTime + config.sendConfirmTimeout
  · obtain ⟨_, hchunks, hlast, _⟩ := update_spec config r t
    rw [checkCompletedChains_waiting config t ht] at hchunks hlast
    rw [Holds, hchunks, hlast]
    exact h
  · exact (update_holds_elapsed hlen hi h t (Int.not_lt.1 ht)).1

theorem addDataChunk_holds {chunk : ReceivingChunk} (hw : config.windowSize < 32768)
    (hlen : stream.length < 65535) (hc : TruePiece stream chunk)
    (h : Holds config.windowSize r accepted)
    (hin : r.lastConfirmedOffset.distance chunk.offset < config.windowSize)
    (hstop : chunk.stop ≤ r.lastConfirmedOffset.value + config.windowSize)
    (hfit : chunk.stop ≤ r.lastConfirmedOffset.value ∨
      r.lastConfirmedOffset.value ≤ chunk.offset.value ∧
        FitsBetween r.receivedDataChunks chunk) :
    ∃ r', addDataChunk config.windowSize r chunk = some r' ∧
      Holds config.windowSize r' (accepted ++ [chunk]) := by
  obtain ⟨fresh, stale, hl, hcov⟩ := h
  have hend := hc.end_le
  have hpos := List.length_pos_iff.2 hc.1
  have hwin := (RingIndex.distance_lt_iff _ _ _ (by omega)).1 hin
  have hsplit : ∀ i, Covers (accepted ++ [chunk]) i → Covers accepted i ∨ Covers [chunk] i := by
    rintro i ⟨ch, hch, hi⟩
    rcases List.mem_append.1 hch with hch | hch
    · exact Or.inl ⟨ch, hch, hi⟩
    · exact Or.inr ⟨ch, hch, hi⟩
  obtain ⟨r'', he'', hs, _⟩ := addDataChunk_spec (r := r) hw hlen hc
  rcases hfit with hold | ⟨hnew, hfit⟩
  · have hbehind : chunk.offset.value + (65535 - config.windowSize) <
        r.lastConfirmedOffset.value := by
      unfold ReceivingChunk.stop at hold
      omega
    obtain ⟨r', stale', he, hl'⟩ :=
      addDataChunk_stale hw hl hc.1 (by omega) hbehind hold
    obtain rfl : r' = r'' := Option.some.inj (he.symm.trans he'')
    refine ⟨r', he, fresh, stale', ?_, ?_⟩
    · rw [hs.lastConfirmedOffset]
      exact hl'
    · intro i hi
      rw [hs.lastConfirmedOffset]
      rcases hsplit i hi with hi | ⟨ch, hch, _, hhi⟩
      · exact hcov i hi
      · left
        rw [List.mem_singleton.1 hch] at hhi
        omega
  · obtain ⟨r', fresh', he, hl', hcov'⟩ :=
      addDataChunk_fresh hw hl (by omega) (by omega) hstop hfit
    obtain rfl : r' = r'' := Option.some.inj (he.symm.trans he'')
    refine ⟨r', he, fresh', stale, ?_, ?_⟩
    · rw [hs.lastConfirmedOffset]
      exact hl'
    · intro i hi
      rw [hs.lastConfirmedOffset]
      rcases hsplit i hi with hi | hi
      · rcases hcov i hi with h | h
        · exact Or.inl h
        · exact Or.inr (hcov' i (Or.inl h))
      · exact Or.inr (hcov' i (Or.inr hi))

end Handlers
end SafeStreamReceiving

namespace ReceiverWorld
open SafeStreamReceiving

def InWindow (config : SafeStreamConfig) (w : ReceiverWorld) (offset : ℕ)
    (data : DataBuffer) : Prop :=
  offset < w.receiving.lastConfirmedOffset.value + config.windowSize ∧
    offset + data.length ≤ w.receiving.lastConfirmedOffset.value + config.windowSize

/-- If the piece passes the window test, it is old or fits between the stored chunks. -/
def AcceptedFits (config : SafeStreamConfig) (w : ReceiverWorld) (offset : ℕ)
    (data : DataBuffer) : Prop :=
  w.receiving.lastConfirmedOffset.distance (.ofVal offset) < config.windowSize →
    offset + data.length ≤ w.receiving.lastConfirmedOffset.value ∨
      w.receiving.lastConfirmedOffset.value ≤ offset ∧
        FitsBetween w.receiving.receivedDataChunks ⟨.ofVal offset, data⟩

def OnPiece (P : ReceiverWorld → ℕ → DataBuffer → Prop) (w : ReceiverWorld) :
    ReceiverEvent → Prop
  | .send offset data => P w offset data
  | .repeat_ _ offset data => P w offset data
  | .update _ => True

instance (config : SafeStreamConfig) (w : ReceiverWorld) (offset : ℕ) (data : DataBuffer) :
    Decidable (InWindow config w offset data) :=
  inferInstanceAs (Decidable (_ ∧ _))

instance (config : SafeStreamConfig) (w : ReceiverWorld) (offset : ℕ) (data : DataBuffer) :
    Decidable (AcceptedFits config w offset data) :=
  inferInstanceAs (Decidable (_ → _))

instance (P : ReceiverWorld → ℕ → DataBuffer → Prop) [∀ w o d, Decidable (P w o d)]
    (w : ReceiverWorld) : DecidablePred (OnPiece P w)
  | .send offset data => inferInstanceAs (Decidable (P w offset data))
  | .repeat_ _ offset data => inferInstanceAs (Decidable (P w offset data))
  | .update _ => inferInstanceAs (Decidable True)

/-- Bytes that accepted pieces cover from the start on have been delivered. -/
def DeliversCovered (w : ReceiverWorld) : Prop :=
  ∀ k, (∀ i < k, Covers w.accepted i) → k ≤ w.received.flatten.length

structure HoldInv (config : SafeStreamConfig) (stream : DataBuffer) (w : ReceiverWorld) :
    Prop where
  inv : Inv stream w
  holds : Holds config.windowSize w.receiving w.accepted

section Completeness
variable {config : SafeStreamConfig} {stream : DataBuffer}

theorem init_holdInv (config : SafeStreamConfig) (stream : DataBuffer) :
    HoldInv config stream {} := by
  refine ⟨init_inv stream, [], [], ⟨rfl, List.Pairwise.nil, ?_, ?_⟩, ?_⟩
  · intro ch hch
    cases hch
  · intro ch hch
    cases hch
  · rintro i ⟨ch, hch, _⟩
    cases hch

theorem accept_holds {w : ReceiverWorld} {offset : ℕ} {data : DataBuffer}
    (hw : config.windowSize < 32768) (hlen : stream.length < 65535)
    (hp : data ≠ [] ∧ IsPiece stream offset data) (h : HoldInv config stream w)
    (hin : InWindow config w offset data) (hfit : AcceptedFits config w offset data)
    (hacc : w.receiving.lastConfirmedOffset.distance (.ofVal offset) < config.windowSize) :
    ∃ r', addDataChunk config.windowSize w.receiving ⟨.ofVal offset, data⟩ = some r' ∧
      Holds config.windowSize r' (w.accept config (.ofVal offset) data) := by
  obtain ⟨hv, hc⟩ := truePiece_ofVal hlen hp
  have hstop : ReceivingChunk.stop ⟨.ofVal offset, data⟩ = offset + data.length :=
    congrArg (· + data.length) hv
  rw [accept, if_neg (by omega)]
  refine addDataChunk_holds hw hlen hc h.holds hacc (hstop.trans_le hin.2) ?_
  rw [hstop]
  change _ ∨ _ ≤ (RingIndex.ofVal offset : SafeStreamRingIndex).value ∧ _
  rw [hv]
  exact hfit hacc

theorem step_holdInv (hw : config.windowSize < 32768) (hlen : stream.length < 65535)
    (w : ReceiverWorld) (e : ReceiverEvent) (h : HoldInv config stream w)
    (he : e.IsPieceOf stream ∧ OnPiece (InWindow config) w e ∧ OnPiece (AcceptedFits config) w e) :
    ∃ w', step config w e = some w' ∧ HoldInv config stream w' := by
  obtain ⟨hp, hin, hfit⟩ := he
  obtain ⟨w', hstep, hi⟩ := step_inv hw hlen w e h.inv hp
  refine ⟨w', hstep, hi, ?_⟩
  cases e with
  | send offset data =>
    by_cases hd : config.windowSize ≤ w.receiving.lastConfirmedOffset.distance (.ofVal offset)
    · simp only [step, receiveSend, accept, if_pos hd, Option.map_some, Option.some.injEq] at hstep
      subst hstep
      exact h.holds
    · obtain ⟨r', hr, hh⟩ := accept_holds hw hlen hp h hin hfit (Nat.not_le.1 hd)
      simp only [step, receiveSend, if_neg hd, hr, Option.map_some, Option.some.injEq] at hstep
      subst hstep
      exact hh
  | repeat_ count offset data =>
    by_cases hd : config.windowSize ≤ w.receiving.lastConfirmedOffset.distance (.ofVal offset)
    · simp only [step, receiveRepeat, accept, if_pos hd, Option.map_some,
        Option.some.injEq] at hstep
      subst hstep
      exact h.holds
    · obtain ⟨r', hr, hh⟩ := accept_holds hw hlen hp h hin hfit (Nat.not_le.1 hd)
      simp only [step, receiveRepeat, if_neg hd, hr, Option.map_some, Option.some.injEq] at hstep
      subst hstep
      exact hh
  | update t =>
    simp only [step, Option.some.injEq] at hstep
    subst hstep
    exact update_holds hlen h.inv h.holds t

theorem update_deliversCovered (hlen : stream.length < 65535) {w : ReceiverWorld}
    (h : HoldInv config stream w) (t : TimePoint)
    (ht : w.receiving.lastSendConfirmTime + config.sendConfirmTimeout ≤ t) :
    ∃ w', step config w (.update t) = some w' ∧ DeliversCovered w' := by
  refine ⟨_, rfl, ?_⟩
  obtain ⟨_, hnot⟩ := update_holds_elapsed hlen h.inv h.holds t ht
  obtain ⟨hi, _⟩ := update_inv config hlen h.inv t
  intro k hk
  by_contra hlt
  apply hnot
  have hpos := hk (w.receiving.update config t).1.lastConfirmedOffset.value
  rw [← hi.received_length, ← handed_update] at hpos ⊢
  exact hpos (Nat.lt_of_not_le hlt)

/-- If every accepted piece is old or fits between the stored chunks, an update whose
timer has run out leaves no covered byte undelivered. -/
theorem delivers_everything_covered (config : SafeStreamConfig) (stream : DataBuffer)
    (events : List ReceiverEvent) (t : TimePoint) (hw : config.windowSize < 32768)
    (hlen : stream.length < 65535)
    (ha : Along (step config) (fun w e => e.IsPieceOf stream ∧
      OnPiece (InWindow config) w e ∧ OnPiece (AcceptedFits config) w e) {} events) :
    ∃ w, run (step config) {} events = some w ∧
      (w.receiving.lastSendConfirmTime + config.sendConfirmTimeout ≤ t →
        ∃ w', step config w (.update t) = some w' ∧ DeliversCovered w') := by
  obtain ⟨w, hr, hi⟩ := run_invariant (I := HoldInv config stream)
    (fun w e h he => step_holdInv hw hlen w e h he) (init_holdInv config stream) ha
  exact ⟨w, hr, update_deliversCovered hlen hi t⟩

theorem delivers_everything_covered_gap :
    ∃ w, run (step testConfig) {} [.send 0 [1], .send 2 [3, 4], .repeat_ 1 1 [2, 3]] = some w ∧
      (w.receiving.lastSendConfirmTime + testConfig.sendConfirmTimeout ≤ 7 →
        ∃ w', step testConfig w (.update 7) = some w' ∧ DeliversCovered w') :=
  delivers_everything_covered testConfig [1, 2, 3, 4]
    [.send 0 [1], .send 2 [3, 4], .repeat_ 1 1 [2, 3]] 7 (by decide) (by decide) (by decide)

/-- A piece that starts inside a stored chunk is stored whole and then blocks the chain. -/
theorem overlapping_piece_blocks_delivery :
    ¬ ∀ (config : SafeStreamConfig) (stream : DataBuffer) (events : List ReceiverEvent)
        (t : TimePoint), config.windowSize < 32768 → stream.length < 65535 →
      Along (step config) (fun w e => e.IsPieceOf stream ∧ OnPiece (InWindow config) w e)
        {} events → TimesOrdered (events ++ [.update t]) →
      ∃ w, run (step config) {} events = some w ∧
        (w.receiving.lastSendConfirmTime + config.sendConfirmTimeout ≤ t →
          ∃ w', step config w (.update t) = some w' ∧ DeliversCovered w') := by
  intro h
  obtain ⟨w, hr, hs⟩ := h testConfig [1, 2, 3] [.send 0 [1, 2], .send 1 [2, 3]] 0
    (by decide) (by decide) (by decide) (by decide)
  have ht : w.receiving.lastSendConfirmTime = 0 :=
    run_observe (f := fun w => w.receiving.lastSendConfirmTime) hr (by decide)
  obtain ⟨w', hw', hd⟩ := hs (by rw [ht]; decide)
  have hrun := (run_snoc (.update 0) hr).trans hw'
  have hlen : w'.received.flatten.length = 2 :=
    run_observe (f := fun w => w.received.flatten.length) hrun (by decide)
  have hacc : w'.accepted = [⟨.ofVal 0, [1, 2]⟩, ⟨.ofVal 1, [2, 3]⟩] :=
    run_observe (f := fun w => w.accepted) hrun (by decide)
  have hle := hd 3 (by rw [hacc]; decide)
  omega

end Completeness
end ReceiverWorld
end AetherClient
