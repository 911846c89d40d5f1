import AetherClient.Intervals
import AetherClient.SafeStreamSending

set_option autoImplicit false

namespace AetherClient
open Intervals

namespace SendingChunk

def first (ch : SendingChunk) : ℕ := ch.beginOffset.value
def last (ch : SendingChunk) : ℕ := ch.endOffset.value

abbrev Covers (ch : SendingChunk) (i : ℕ) : Prop := Intervals.Covers first last ch i

def InWindow (windowSize base : ℕ) (ch : SendingChunk) : Prop :=
  base ≤ ch.first ∧ ch.first ≤ ch.last ∧ ch.last ≤ base + windowSize ∧ ch.last < 65535

instance (windowSize base : ℕ) (ch : SendingChunk) : Decidable (InWindow windowSize base ch) :=
  inferInstanceAs (Decidable (_ ∧ _))

end SendingChunk

namespace SendingChunkList
open SendingChunk

abbrev Disjoint (chunks : List SendingChunk) : Prop := Separate first last chunks

section Remove
variable {w base : ℕ} {chunks : List SendingChunk} {offset : SafeStreamRingIndex}
  {ch left : SendingChunk} {i : ℕ}

def cutUpTo (w : ℕ) (offset : SafeStreamRingIndex) (sch : SendingChunk) : Option SendingChunk :=
  let range : OffsetRange := ⟨sch.beginOffset, sch.endOffset, w⟩
  if range.before offset then none
  else if range.inRange offset then
    if offset = sch.endOffset then none else some { sch with beginOffset := offset }
  else some sch

theorem removeUpTo_eq : removeUpTo w chunks offset = chunks.filterMap (cutUpTo w offset) := rfl

theorem cutUpTo_eq_some_iff :
    cutUpTo w offset ch = some left ↔
      OffsetRange.before ⟨ch.beginOffset, ch.endOffset, w⟩ offset = false ∧
      if OffsetRange.inRange ⟨ch.beginOffset, ch.endOffset, w⟩ offset then
        offset ≠ ch.endOffset ∧ { ch with beginOffset := offset } = left
      else ch = left := by
  unfold cutUpTo
  dsimp only
  by_cases hb : OffsetRange.before ⟨ch.beginOffset, ch.endOffset, w⟩ offset = true
  · simp [hb]
  · by_cases hin : OffsetRange.inRange ⟨ch.beginOffset, ch.endOffset, w⟩ offset = true
    · by_cases he : offset = ch.endOffset
      · simp [he]
      · simp [hb, hin, he]
    · simp [hb, hin]

theorem before_chunk_iff (hw : w ≤ 65535) (ch : SendingChunk) (offset : SafeStreamRingIndex) :
    OffsetRange.before ⟨ch.beginOffset, ch.endOffset, w⟩ offset = false ↔
      (offset.value ≤ ch.last ∧ ch.last ≤ offset.value + w) ∨
        ch.last + (65535 - w) ≤ offset.value :=
  OffsetRange.before_eq_false_iff_ring _ offset hw

theorem inRange_chunk_iff (hw : w ≤ 65535) (ch : SendingChunk) (offset : SafeStreamRingIndex) :
    OffsetRange.inRange ⟨ch.beginOffset, ch.endOffset, w⟩ offset = true ↔
      ((ch.first ≤ offset.value ∧ offset.value ≤ ch.first + w) ∨
        offset.value + (65535 - w) ≤ ch.first) ∧
      ((offset.value ≤ ch.last ∧ ch.last ≤ offset.value + w) ∨
        ch.last + (65535 - w) ≤ offset.value) :=
  OffsetRange.inRange_iff_ring _ offset hw

/-- The chunk ends at most a window after the offset, or a ring's length less a window before it. If
it begins at most a window before the offset, or that length after it, it is cut to begin at the
offset, and if it ends there, it goes. The byte is in what is left. -/
def LeavesByte (w : ℕ) (offset : SafeStreamRingIndex) (ch : SendingChunk) (i : ℕ) : Prop :=
  ((offset.value ≤ ch.last ∧ ch.last ≤ offset.value + w) ∨
      ch.last + (65535 - w) ≤ offset.value) ∧
    if (ch.first ≤ offset.value ∧ offset.value ≤ ch.first + w) ∨
        offset.value + (65535 - w) ≤ ch.first then
      offset.value ≠ ch.last ∧ offset.value ≤ i ∧ i ≤ ch.last
    else ch.Covers i

theorem leavesByte_iff (hw : w ≤ 65535) :
    LeavesByte w offset ch i ↔ ∃ left, cutUpTo w offset ch = some left ∧ left.Covers i := by
  have hend : offset = ch.endOffset ↔ offset.value = ch.last := RingIndex.ext_iff
  simp only [cutUpTo_eq_some_iff, before_chunk_iff hw, inRange_chunk_iff hw, LeavesByte, ne_eq, hend]
  constructor
  · rintro ⟨hb, hi⟩
    split_ifs at hi with hin
    · refine ⟨{ ch with beginOffset := offset }, ⟨hb, ?_⟩, hi.2⟩
      rw [if_pos ⟨hin, hb⟩]
      exact ⟨hi.1, rfl⟩
    · refine ⟨ch, ⟨hb, ?_⟩, hi⟩
      rw [if_neg fun h => hin h.1]
  · rintro ⟨left, ⟨hb, hleft⟩, hi⟩
    refine ⟨hb, ?_⟩
    simp only [hb, and_true] at hleft
    split_ifs at hleft ⊢
    · obtain ⟨hne, rfl⟩ := hleft
      exact ⟨hne, hi⟩
    · exact hleft ▸ hi

theorem exists_removeUpTo_covers (hw : w ≤ 65535) :
    (∃ left ∈ removeUpTo w chunks offset, left.Covers i) ↔
      ∃ ch ∈ chunks, LeavesByte w offset ch i := by
  simp only [removeUpTo_eq, List.mem_filterMap, leavesByte_iff hw]
  constructor
  · rintro ⟨left, ⟨ch, hch, hl⟩, hi⟩
    exact ⟨ch, hch, left, hl, hi⟩
  · rintro ⟨ch, hch, left, hl, hi⟩
    exact ⟨left, ⟨ch, hch, hl⟩, hi⟩

/-- No remaining chunk contains a byte at or before `offset`, and the bytes after it that
are in some chunk are the same as before. -/
def RemovesExactly (w : ℕ) (chunks : List SendingChunk) (offset : SafeStreamRingIndex) : Prop :=
  (∀ ch ∈ removeUpTo w chunks offset, ∀ i, i ≤ offset.value → ¬ ch.Covers i) ∧
    ∀ i, offset.value < i →
      ((∃ ch ∈ removeUpTo w chunks offset, ch.Covers i) ↔ ∃ ch ∈ chunks, ch.Covers i)

/-- The chunk ends at `offset`, or lies after it with its end within a window and its begin
not a ring's length less a window away, or lies before it: by less than that length, or with
its begin within a window. -/
def ClearOf (w : ℕ) (offset : SafeStreamRingIndex) (ch : SendingChunk) : Prop :=
  ch.last = offset.value ∨
    (offset.value < ch.first ∧ ch.last ≤ offset.value + w ∧
      ch.first < offset.value + (65535 - w)) ∨
    (ch.last < offset.value ∧
      (offset.value < ch.last + (65535 - w) ∨ offset.value ≤ ch.first + w))

instance (w : ℕ) (offset : SafeStreamRingIndex) (ch : SendingChunk) :
    Decidable (ClearOf w offset ch) :=
  inferInstanceAs (Decidable (_ ∨ _ ∨ _))

theorem leavesByte_of_clear (hwin : ch.InWindow w base) (hc : ClearOf w offset ch) :
    LeavesByte w offset ch i ↔ ch.Covers i ∧ offset.value < i := by
  unfold InWindow at hwin
  unfold ClearOf at hc
  unfold LeavesByte
  change _ ↔ (ch.first ≤ i ∧ i ≤ ch.last) ∧ _
  split_ifs with hin
  · omega
  · change _ ∧ (ch.first ≤ i ∧ i ≤ ch.last) ↔ _
    omega

theorem clear_of_removesExactly (hw : w ≤ 65535) (hin : ∀ ch ∈ chunks, ch.InWindow w base)
    (hd : Disjoint chunks) (h : RemovesExactly w chunks offset) (hch : ch ∈ chunks) :
    ClearOf w offset ch := by
  obtain ⟨hnone, hsame⟩ := h
  have hafter : ∀ c ∈ chunks, ∀ i, LeavesByte w offset c i → offset.value < i := by
    intro c hc i hi
    obtain ⟨left, hleft, hcov⟩ := (exists_removeUpTo_covers hw).2 ⟨c, hc, hi⟩
    by_contra hle
    exact hnone left hleft i (Nat.not_lt.1 hle) hcov
  obtain ⟨_, hwf, _⟩ := hin ch hch
  by_contra hn
  unfold ClearOf at hn
  by_cases hb : (offset.value ≤ ch.last ∧ ch.last ≤ offset.value + w) ∨
      ch.last + (65535 - w) ≤ offset.value
  · by_cases hr : (ch.first ≤ offset.value ∧ offset.value ≤ ch.first + w) ∨
        offset.value + (65535 - w) ≤ ch.first
    · -- the chunk is cut so that it begins at the offset
      have hleft : LeavesByte w offset ch offset.value := by
        refine ⟨hb, ?_⟩
        rw [if_pos hr]
        omega
      exact Nat.lt_irrefl _ (hafter ch hch _ hleft)
    · have hleft : LeavesByte w offset ch ch.first := by
        refine ⟨hb, ?_⟩
        rw [if_neg hr]
        exact ⟨Nat.le_refl _, hwf⟩
      have hlt := hafter ch hch _ hleft
      omega
  · -- the chunk is gone, so another one would have to cover its first byte
    have hlt : offset.value < ch.first := by omega
    obtain ⟨c, hc, hcb, hcov⟩ := (exists_removeUpTo_covers hw).1
      ((hsame ch.first hlt).2 ⟨ch, hch, Nat.le_refl _, hwf⟩)
    split_ifs at hcov with hr
    · have hleft : LeavesByte w offset c offset.value := by
        refine ⟨hcb, ?_⟩
        rw [if_pos hr]
        exact ⟨hcov.1, Nat.le_refl _, by omega⟩
      exact Nat.lt_irrefl _ (hafter c hc _ hleft)
    · rw [hd.eq_of_covers hch hc ⟨Nat.le_refl _, hwf⟩ hcov] at hb
      exact hb hcb

/-- Removing is exact if and only if the offset lies in no chunk, apart from a last byte,
and none is so far away that the ring comparison takes it for the other side. -/
theorem removeUpTo_exact_iff (w base : ℕ) (chunks : List SendingChunk)
    (offset : SafeStreamRingIndex) (hw : w ≤ 65535)
    (hin : ∀ ch ∈ chunks, ch.InWindow w base) (hd : Disjoint chunks) :
    RemovesExactly w chunks offset ↔ ∀ ch ∈ chunks, ClearOf w offset ch := by
  constructor
  · intro h ch hch
    exact clear_of_removesExactly hw hin hd h hch
  · intro hc
    constructor
    · intro left hleft i hi hcov
      obtain ⟨ch, hch, hl⟩ := (exists_removeUpTo_covers hw).1 ⟨left, hleft, hcov⟩
      have hlt := ((leavesByte_of_clear (hin ch hch) (hc ch hch)).1 hl).2
      omega
    · intro i hi
      rw [exists_removeUpTo_covers hw]
      refine exists_congr fun ch => and_congr_right fun hch => ?_
      rw [leavesByte_of_clear (hin ch hch) (hc ch hch)]
      exact and_iff_left hi

end Remove

/-- A confirm of the second of four bytes leaves a chunk that still begins with it. -/
theorem removeUpTo_keeps_confirmed_byte :
    ¬ ∀ (w base : ℕ) (chunks : List SendingChunk) (offset : SafeStreamRingIndex), w ≤ 65535 →
      (∀ ch ∈ chunks, ch.InWindow w base) → Disjoint chunks → RemovesExactly w chunks offset := by
  intro h
  have hex := h 10240 0 [⟨.ofVal 0, .ofVal 3, 1, 0⟩] (.ofVal 1) (by decide) (by decide) (by decide)
  exact hex.1 ⟨.ofVal 1, .ofVal 3, 1, 0⟩ (by decide) 1 (by decide) (by decide)

theorem removeUpTo_exact_between_chunks :
    RemovesExactly 10240 [⟨.ofVal 0, .ofVal 3, 1, 0⟩, ⟨.ofVal 4, .ofVal 7, 1, 1⟩] (.ofVal 3) :=
  (removeUpTo_exact_iff 10240 0 [⟨.ofVal 0, .ofVal 3, 1, 0⟩, ⟨.ofVal 4, .ofVal 7, 1, 1⟩]
    (.ofVal 3) (by decide) (by decide) (by decide)).2 (by decide)

section Count
variable {w base : ℕ} {chunks : List SendingChunk}

def sharing (chunks : List SendingChunk) (begin end_ : SafeStreamRingIndex) :
    List SendingChunk :=
  chunks.filter fun ch => decide (ch.first ≤ end_.value) && decide (begin.value ≤ ch.last)

def smallestCount (chunks : List SendingChunk) : ℕ :=
  ((chunks.map SendingChunk.repeatCount).min?).getD 0

theorem smallestCount_eq_iff (chunks : List SendingChunk) (n : ℕ) :
    n = smallestCount chunks ↔ (chunks = [] ∧ n = 0) ∨
      ((∃ ch ∈ chunks, ch.repeatCount = n) ∧ ∀ ch ∈ chunks, n ≤ ch.repeatCount) := by
  unfold smallestCount
  cases hm : (chunks.map SendingChunk.repeatCount).min? with
  | none =>
    have hnil : chunks = [] := by simpa using hm
    simp [hnil]
  | some m =>
    have hne : chunks ≠ [] := by
      rintro rfl
      cases hm
    obtain ⟨hmem, hle⟩ := List.min?_eq_some_iff.1 hm
    obtain ⟨ch, hch, hcount⟩ := List.mem_map.1 hmem
    constructor
    · rintro rfl
      refine Or.inr ⟨⟨ch, hch, hcount⟩, ?_⟩
      intro ch hch
      exact hle _ (List.mem_map_of_mem hch)
    · rintro (⟨hnil, _⟩ | ⟨⟨ch', hch', hcount'⟩, hall⟩)
      · exact absurd hnil hne
      · have hge := hle _ (List.mem_map_of_mem hch')
        have hge' := hall ch hch
        simp only [Option.getD_some]
        omega

/-- The merge overwrites the count at every overlapped chunk, so the last one decides. -/
theorem foldl_count (p : SendingChunk → Bool) (k n : ℕ) (chunks : List SendingChunk) :
    chunks.foldl (fun n ch => if p ch then min k ch.repeatCount else n) n =
      (((chunks.filter p).getLast?).map fun ch => min k ch.repeatCount).getD n := by
  induction chunks generalizing n with
  | nil => rfl
  | cons ch chunks ih =>
    rw [List.foldl_cons, ih]
    by_cases hp : p ch = true
    · rw [if_pos hp, List.filter_cons_of_pos hp, List.getLast?_cons]
      cases (chunks.filter p).getLast? <;> rfl
    · rw [if_neg hp, List.filter_cons_of_neg hp]

/-- Of the chunks that share a byte with the range none has a smaller count than both `head`
and `tail`, and one has a count that is not above either. -/
def EndsAreSmallest (chunks : List SendingChunk) (begin end_ : SafeStreamRingIndex)
    (head tail : SendingChunk) : Prop :=
  (∀ ch ∈ sharing chunks begin end_,
      head.repeatCount ≤ ch.repeatCount ∨ tail.repeatCount ≤ ch.repeatCount) ∧
    ((∃ ch ∈ sharing chunks begin end_,
        ch.repeatCount ≤ head.repeatCount ∧ ch.repeatCount ≤ tail.repeatCount) ∨
      (sharing chunks begin end_ = [] ∧ (head.repeatCount = 0 ∨ tail.repeatCount = 0)))

instance (chunks : List SendingChunk) (begin end_ : SafeStreamRingIndex)
    (head tail : SendingChunk) : Decidable (EndsAreSmallest chunks begin end_ head tail) :=
  inferInstanceAs (Decidable (_ ∧ _))

/-- Either no chunk begins in the range, and none that shares a byte with it was sent before,
or the first one that begins in it is the range itself, or that one and the last one with an
end in the range have the smallest counts. -/
def CountFromEnds (w : ℕ) (chunks : List SendingChunk) (begin end_ : SafeStreamRingIndex) :
    Prop :=
  ((∀ ch ∈ chunks, OffsetRange.inRange ⟨begin, end_, w⟩ ch.beginOffset = false) ∧
      (sharing chunks begin end_ = [] ∨ ∃ ch ∈ sharing chunks begin end_, ch.repeatCount = 0)) ∨
    ∃ head ∈ chunks.find? fun ch => OffsetRange.inRange ⟨begin, end_, w⟩ ch.beginOffset,
      (begin = head.beginOffset ∧ end_ = head.endOffset) ∨
        ∃ tail ∈ (chunks.filter (overlaps ⟨begin, end_, w⟩)).getLast?,
          EndsAreSmallest chunks begin end_ head tail

instance (w : ℕ) (chunks : List SendingChunk) (begin end_ : SafeStreamRingIndex) :
    Decidable (CountFromEnds w chunks begin end_) :=
  inferInstanceAs (Decidable (_ ∨ _))

theorem min_eq_smallestCount_iff (begin end_ : SafeStreamRingIndex) (head tail : SendingChunk) :
    min head.repeatCount tail.repeatCount = smallestCount (sharing chunks begin end_) ↔
      EndsAreSmallest chunks begin end_ head tail := by
  rw [smallestCount_eq_iff]
  unfold EndsAreSmallest
  constructor
  · rintro (⟨hnil, hz⟩ | ⟨⟨ch, hch, he⟩, hall⟩)
    · refine ⟨?_, Or.inr ⟨hnil, by omega⟩⟩
      rw [hnil]
      simp
    · refine ⟨?_, Or.inl ⟨ch, hch, by omega⟩⟩
      intro c hc
      have hle := hall c hc
      omega
  · rintro ⟨hall, ⟨ch, hch, hle⟩ | ⟨hnil, hz⟩⟩
    · refine Or.inr ⟨⟨ch, hch, ?_⟩, ?_⟩
      · have hge := hall ch hch
        omega
      · intro c hc
        have hge := hall c hc
        omega
    · exact Or.inl ⟨hnil, by omega⟩

theorem sharing_of_same (hin : ∀ ch ∈ chunks, ch.InWindow w base) (hd : Disjoint chunks)
    {ch : SendingChunk} (hch : ch ∈ chunks) :
    sharing chunks ch.beginOffset ch.endOffset = [ch] := by
  have hself := (hin ch hch).2.1
  rw [← hd.filter_covers hch ⟨Nat.le_refl _, hself⟩]
  apply List.filter_congr
  intro other hother
  have hwf := (hin other hother).2.1
  rw [← Bool.decide_and, decide_eq_decide]
  change other.first ≤ ch.last ∧ ch.first ≤ other.last ↔
    other.first ≤ ch.first ∧ ch.first ≤ other.last
  by_cases he : other = ch
  · subst he
    omega
  · have hap := hd.apart hother hch he
    omega

/-- The returned chunk carries the smallest count of the chunks that share a byte with the
range if and only if the two chunks that the code looks at give it. -/
theorem register_count_smallest_iff (w base : ℕ) (chunks : List SendingChunk)
    (begin end_ : SafeStreamRingIndex) (sendTime : TimePoint)
    (hin : ∀ ch ∈ chunks, ch.InWindow w base) (hd : Disjoint chunks) :
    (register w chunks begin end_ sendTime).2.repeatCount =
        smallestCount (sharing chunks begin end_) ↔
      CountFromEnds w chunks begin end_ := by
  unfold register CountFromEnds
  dsimp only
  cases hf : chunks.find? fun ch => OffsetRange.inRange ⟨begin, end_, w⟩ ch.beginOffset with
  | none =>
    have hnone : ∀ ch ∈ chunks, OffsetRange.inRange ⟨begin, end_, w⟩ ch.beginOffset = false := by
      simpa using hf
    dsimp only
    rw [smallestCount_eq_iff]
    constructor
    · rintro (⟨hnil, _⟩ | ⟨hzero, _⟩)
      · exact Or.inl ⟨hnone, Or.inl hnil⟩
      · exact Or.inl ⟨hnone, Or.inr hzero⟩
    · rintro (⟨_, hnil | hzero⟩ | ⟨_, hc, _⟩)
      · exact Or.inl ⟨hnil, rfl⟩
      · exact Or.inr ⟨hzero, fun _ _ => Nat.zero_le _⟩
      · cases hc
  | some head =>
    have hmem := List.mem_of_find?_eq_some hf
    have hstarts := List.find?_some hf
    have hhead : overlaps ⟨begin, end_, w⟩ head = true := by
      simp only [overlaps, hstarts, Bool.true_or]
    have hnot : ¬ ∀ ch ∈ chunks, OffsetRange.inRange ⟨begin, end_, w⟩ ch.beginOffset = false := by
      intro hall
      simp [hall head hmem] at hstarts
    dsimp only
    by_cases hsame : begin = head.beginOffset ∧ end_ = head.endOffset
    · rw [if_pos hsame]
      obtain ⟨rfl, rfl⟩ := hsame
      have hone := sharing_of_same hin hd hmem
      constructor
      · intro _
        exact Or.inr ⟨head, rfl, Or.inl ⟨rfl, rfl⟩⟩
      · intro _
        rw [hone]
        rfl
    · obtain ⟨tail, ht⟩ : ∃ tail,
          (chunks.filter (overlaps ⟨begin, end_, w⟩)).getLast? = some tail := by
        rw [← Option.isSome_iff_exists, List.getLast?_isSome]
        exact List.ne_nil_of_mem (List.mem_filter.2 ⟨hmem, hhead⟩)
      rw [if_neg hsame, foldl_count, ht]
      simp only [Option.map_some, Option.getD_some]
      rw [min_eq_smallestCount_iff]
      constructor
      · intro h
        exact Or.inr ⟨head, rfl, Or.inr ⟨tail, rfl, h⟩⟩
      · rintro (⟨hall, _⟩ | ⟨_, ⟨⟩, hs | ⟨_, ⟨⟩, h⟩⟩)
        · exact absurd hall hnot
        · exact absurd hs hsame
        · exact h

theorem register_count_smallest_three_chunks :
    (register 10240 [⟨.ofVal 0, .ofVal 0, 1, 0⟩, ⟨.ofVal 1, .ofVal 1, 2, 0⟩,
        ⟨.ofVal 2, .ofVal 2, 3, 0⟩] (.ofVal 0) (.ofVal 2) 1).2.repeatCount =
      smallestCount (sharing [⟨.ofVal 0, .ofVal 0, 1, 0⟩, ⟨.ofVal 1, .ofVal 1, 2, 0⟩,
        ⟨.ofVal 2, .ofVal 2, 3, 0⟩] (.ofVal 0) (.ofVal 2)) :=
  (register_count_smallest_iff 10240 0 [⟨.ofVal 0, .ofVal 0, 1, 0⟩, ⟨.ofVal 1, .ofVal 1, 2, 0⟩,
    ⟨.ofVal 2, .ofVal 2, 3, 0⟩] (.ofVal 0) (.ofVal 2) 1 (by decide) (by decide)).2 (by decide)

/-- Bytes 0 to 3 were sent once; a packet with bytes 2 to 5 overlaps them, yet it is
registered as if none of its bytes had been sent before. -/
theorem register_forgets_left_chunk :
    ¬ ∀ (w base : ℕ) (chunks : List SendingChunk) (begin end_ : SafeStreamRingIndex)
      (sendTime : TimePoint), w ≤ 65535 → (∀ ch ∈ chunks, ch.InWindow w base) →
      Disjoint chunks → base ≤ begin.value → begin.value ≤ end_.value →
      end_.value ≤ base + w → end_.value < 65535 →
      (register w chunks begin end_ sendTime).2.repeatCount =
        smallestCount (sharing chunks begin end_) := by
  intro h
  have hc := h 10240 0 [⟨.ofVal 0, .ofVal 3, 1, 0⟩] (.ofVal 2) (.ofVal 5) 1 (by decide) (by decide)
    (by decide) (by decide) (by decide) (by decide) (by decide)
  exact absurd hc (by decide)

end Count

end SendingChunkList
end AetherClient
