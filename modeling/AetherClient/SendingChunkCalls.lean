import AetherClient.Runs
import AetherClient.SendingChunks

set_option autoImplicit false

namespace AetherClient
open Intervals Runs

structure RegisteredRange where
  begin : SafeStreamRingIndex
  end_ : SafeStreamRingIndex
  sendTime : TimePoint
deriving DecidableEq, Repr

namespace RegisteredRange

def first (r : RegisteredRange) : ℕ := r.begin.value
def last (r : RegisteredRange) : ℕ := r.end_.value

abbrev Covers (r : RegisteredRange) (i : ℕ) : Prop := Intervals.Covers first last r i

def InWindow (windowSize base : ℕ) (r : RegisteredRange) : Prop :=
  base ≤ r.first ∧ r.first ≤ r.last ∧ r.last ≤ base + windowSize ∧ r.last < 65535 ∧
    r.last < r.first + windowSize

instance (windowSize base : ℕ) (r : RegisteredRange) : Decidable (InWindow windowSize base r) :=
  inferInstanceAs (Decidable (_ ∧ _))

end RegisteredRange

inductive ChunkCall where
  | register (r : RegisteredRange)
  | removeUpTo (offset : SafeStreamRingIndex)
deriving DecidableEq, Repr

structure ChunkWorld where
  chunks : List SendingChunk := []
  registered : List RegisteredRange := []
  removed : List SafeStreamRingIndex := []
deriving DecidableEq, Repr

namespace SendingChunkList
open SendingChunk

section Register
variable {w base : ℕ} {chunks : List SendingChunk} {r : RegisteredRange} {ch left : SendingChunk}
  {offset : SafeStreamRingIndex} {i : ℕ}

/-- The ring comparisons of a `Register` with the chunk agree with the positions. -/
def RegisterAgrees (w : ℕ) (r : RegisteredRange) (ch : SendingChunk) : Prop :=
  (OffsetRange.inRange ⟨r.begin, r.end_, w⟩ ch.beginOffset = true ↔
      r.first ≤ ch.first ∧ ch.first ≤ r.last) ∧
    (OffsetRange.inRange ⟨r.begin, r.end_, w⟩ ch.endOffset = true ↔
      r.first ≤ ch.last ∧ ch.last ≤ r.last)

instance (w : ℕ) (r : RegisteredRange) (ch : SendingChunk) :
    Decidable (RegisterAgrees w r ch) :=
  inferInstanceAs (Decidable (_ ∧ _))

def RemoveAgrees (w : ℕ) (offset : SafeStreamRingIndex) (ch : SendingChunk) : Prop :=
  (OffsetRange.before ⟨ch.beginOffset, ch.endOffset, w⟩ offset = true ↔
      ch.last < offset.value) ∧
    (OffsetRange.inRange ⟨ch.beginOffset, ch.endOffset, w⟩ offset = true ↔
      ch.first ≤ offset.value ∧ offset.value ≤ ch.last)

instance (w : ℕ) (offset : SafeStreamRingIndex) (ch : SendingChunk) :
    Decidable (RemoveAgrees w offset ch) :=
  inferInstanceAs (Decidable (_ ∧ _))

theorem inRange_of_inWindow (hw : w < 32768) (hr : r.InWindow w base) (hlo : base ≤ offset.value)
    (hhi : offset.value ≤ base + w) :
    OffsetRange.inRange ⟨r.begin, r.end_, w⟩ offset = true ↔
      r.first ≤ offset.value ∧ offset.value ≤ r.last := by
  obtain ⟨h1, h2, h3, _⟩ := hr
  rw [OffsetRange.inRange_iff _ offset hw h2]
  change r.first ≤ _ ∧ _ ≤ r.last ∧ _ ≤ r.first + w ∧ r.last ≤ _ + w ↔ _
  omega

theorem registerAgrees_of_lt (hw : w < 32768) (hr : r.InWindow w base)
    (hch : ch.InWindow w base) : RegisterAgrees w r ch := by
  obtain ⟨c1, c2, c3, _⟩ := hch
  exact ⟨inRange_of_inWindow hw hr c1 (Nat.le_trans c2 c3),
    inRange_of_inWindow hw hr (Nat.le_trans c1 c2) c3⟩

theorem removeAgrees_of_lt (hw : w < 32768) (hch : ch.InWindow w base)
    (hlo : base ≤ offset.value) (hhi : offset.value ≤ base + w) : RemoveAgrees w offset ch := by
  obtain ⟨c1, c2, c3, _⟩ := hch
  refine ⟨?_, ?_⟩
  · rw [← Bool.not_eq_false, before_chunk_iff (by omega)]
    omega
  · rw [inRange_chunk_iff (by omega)]
    omega

theorem cutOverlap_cases (hr : r.InWindow w base) (hch : ch.InWindow w base)
    (hagree : RegisterAgrees w r ch) :
    (r.first ≤ ch.first ∧ ch.last ≤ r.last ∧ cutOverlap ⟨r.begin, r.end_, w⟩ ch = none) ∨
    (r.first ≤ ch.first ∧ ch.first ≤ r.last ∧ r.last < ch.last ∧
      ∃ left, cutOverlap ⟨r.begin, r.end_, w⟩ ch = some left ∧ left.first = r.last + 1 ∧
        left.last = ch.last ∧ left.sendTime = ch.sendTime) ∨
    (ch.first < r.first ∧ r.first ≤ ch.last ∧ ch.last ≤ r.last ∧
      ∃ left, cutOverlap ⟨r.begin, r.end_, w⟩ ch = some left ∧ left.first = ch.first ∧
        left.last + 1 = r.first ∧ left.sendTime = ch.sendTime) ∨
    ((ch.last < r.first ∨ r.last < ch.first ∨ (ch.first < r.first ∧ r.last < ch.last)) ∧
      cutOverlap ⟨r.begin, r.end_, w⟩ ch = some ch) := by
  obtain ⟨c1, c2, c3, c4⟩ := hch
  obtain ⟨hb, he⟩ := hagree
  obtain ⟨_, h2, _, h4, _⟩ := hr
  unfold cutOverlap
  by_cases hbegin : r.first ≤ ch.first ∧ ch.first ≤ r.last
  · rw [if_pos (hb.2 hbegin)]
    by_cases hend : r.first ≤ ch.last ∧ ch.last ≤ r.last
    · rw [if_pos (he.2 hend)]
      exact Or.inl ⟨hbegin.1, hend.2, rfl⟩
    · rw [if_neg (mt he.1 hend)]
      refine Or.inr (Or.inl ⟨hbegin.1, hbegin.2, by omega, _, rfl, ?_, rfl, rfl⟩)
      exact RingIndex.add_value _ _ (by decide) (Nat.succ_le_of_lt h4)
  · rw [if_neg (mt hb.1 hbegin)]
    by_cases hend : r.first ≤ ch.last ∧ ch.last ≤ r.last
    · rw [if_pos (he.2 hend)]
      refine Or.inr (Or.inr (Or.inl ⟨by omega, hend.1, hend.2, _, rfl, rfl, ?_, rfl⟩))
      have hpos : 1 ≤ r.begin.value := by
        change 1 ≤ r.first
        omega
      change (r.begin - 1).value + 1 = r.begin.value
      rw [RingIndex.sub_value _ _ (by decide) hpos]
      omega
    · rw [if_neg (mt he.1 hend)]
      exact Or.inr (Or.inr (Or.inr ⟨by omega, rfl⟩))

structure Registers (w base : ℕ) (chunks : List SendingChunk) (r : RegisteredRange)
    (others : List SendingChunk) (new : SendingChunk) : Prop where
  inWindow : ∀ ch ∈ others, ch.InWindow w base
  disjoint : Disjoint others
  apart : ∀ ch ∈ others, ch.last < new.first ∨ new.last < ch.first
  first_eq : new.first = r.first
  last_eq : new.last = r.last
  sendTime_eq : new.sendTime = r.sendTime
  kept : ∀ ch ∈ chunks, ∀ i, ch.Covers i → ¬ r.Covers i →
    ∃ left ∈ others, left.Covers i ∧ left.sendTime = ch.sendTime

theorem registers_append (hin : ∀ ch ∈ chunks, ch.InWindow w base) (hd : Disjoint chunks)
    (hout : ∀ ch ∈ chunks, ch.last < r.first ∨ r.last < ch.first) :
    Registers w base chunks r chunks ⟨r.begin, r.end_, 0, r.sendTime⟩ where
  inWindow := hin
  disjoint := hd
  apart := hout
  first_eq := rfl
  last_eq := rfl
  sendTime_eq := rfl
  kept := fun ch hch _ hi _ => ⟨ch, hch, hi, rfl⟩

theorem registers_move {pre post : List SendingChunk} (hch : chunks = pre ++ ch :: post)
    (hin : ∀ ch ∈ chunks, ch.InWindow w base) (hd : Disjoint chunks)
    (hb : r.begin = ch.beginOffset) (he : r.end_ = ch.endOffset) :
    Registers w base chunks r (pre ++ post) { ch with sendTime := r.sendTime } where
  inWindow := by
    intro c hc
    apply hin c
    rw [hch]
    exact (List.Sublist.append_left (List.sublist_cons_self ch post) pre).subset hc
  disjoint := by
    apply hd.sublist
    rw [hch]
    exact List.Sublist.append_left (List.sublist_cons_self ch post) pre
  apart := by
    rw [hch] at hd
    obtain ⟨_, hpost, hcross⟩ := List.pairwise_append.1 hd
    intro c hc
    rcases List.mem_append.1 hc with hc | hc
    · exact hcross c hc ch List.mem_cons_self
    · exact ((List.pairwise_cons.1 hpost).1 c hc).symm
  first_eq := congrArg RingIndex.value hb.symm
  last_eq := congrArg RingIndex.value he.symm
  sendTime_eq := rfl
  kept := by
    intro c hc i hi hni
    rw [hch] at hc
    rcases List.mem_append.1 hc with hc | hc
    · exact ⟨c, List.mem_append_left _ hc, hi, rfl⟩
    · rcases List.mem_cons.1 hc with rfl | hc
      · -- the moved chunk covers the range itself
        have hni' : ¬ (r.begin.value ≤ i ∧ i ≤ r.end_.value) := hni
        rw [hb, he] at hni'
        exact absurd hi hni'
      · exact ⟨c, List.mem_append_right _ hc, hi, rfl⟩

theorem registers_merge (hr : r.InWindow w base)
    (hin : ∀ ch ∈ chunks, ch.InWindow w base) (hd : Disjoint chunks)
    (hagree : ∀ ch ∈ chunks, RegisterAgrees w r ch)
    (hover : ∀ ch ∈ chunks, ¬ (ch.first < r.first ∧ r.last < ch.last)) (count : ℕ) :
    Registers w base chunks r (chunks.filterMap (cutOverlap ⟨r.begin, r.end_, w⟩))
      ⟨r.begin, r.end_, count, r.sendTime⟩ := by
  have hcut : ∀ ch ∈ chunks, ∀ left, cutOverlap ⟨r.begin, r.end_, w⟩ ch = some left →
      left.InWindow w base ∧ ch.first ≤ left.first ∧ left.last ≤ ch.last ∧
        (left.last < r.first ∨ r.last < left.first) ∧ left.sendTime = ch.sendTime := by
    intro ch hch left hl
    have hcov := hover ch hch
    have hwin := hin ch hch
    have hcases := cutOverlap_cases hr hwin (hagree ch hch)
    unfold InWindow at hwin ⊢
    rw [hl] at hcases
    rcases hcases with ⟨_, _, hn⟩ | ⟨_, _, _, _, he, h1, h2, h3⟩ | ⟨_, _, _, _, he, h1, h2, h3⟩ |
      ⟨hout, he⟩
    · cases hn
    · cases he
      exact ⟨by omega, by omega, by omega, by omega, h3⟩
    · cases he
      exact ⟨by omega, by omega, by omega, by omega, h3⟩
    · cases he
      exact ⟨hwin, by omega, by omega, by omega, rfl⟩
  refine ⟨?_, ?_, ?_, rfl, rfl, rfl, ?_⟩
  · intro left hleft
    obtain ⟨ch, hch, hl⟩ := List.mem_filterMap.1 hleft
    exact (hcut ch hch left hl).1
  · apply hd.filterMap
    intro ch hch left hl
    obtain ⟨_, h1, h2, _⟩ := hcut ch hch left hl
    exact ⟨h1, h2⟩
  · intro left hleft
    obtain ⟨ch, hch, hl⟩ := List.mem_filterMap.1 hleft
    exact (hcut ch hch left hl).2.2.2.1
  · intro ch hch i hi hni
    have hni' : ¬ (r.first ≤ i ∧ i ≤ r.last) := hni
    obtain ⟨hi1, hi2⟩ := hi
    rcases cutOverlap_cases hr (hin ch hch) (hagree ch hch) with ⟨_, _, _⟩ |
      ⟨_, _, _, left, he, h1, h2, h3⟩ | ⟨_, _, _, left, he, h1, h2, h3⟩ | ⟨_, he⟩
    · omega
    · exact ⟨left, List.mem_filterMap.2 ⟨ch, hch, he⟩, ⟨by omega, by omega⟩, h3⟩
    · exact ⟨left, List.mem_filterMap.2 ⟨ch, hch, he⟩, ⟨by omega, by omega⟩, h3⟩
    · exact ⟨ch, List.mem_filterMap.2 ⟨ch, hch, he⟩, ⟨hi1, hi2⟩, rfl⟩

/-- A chunk begins inside the range, or the range begins inside no chunk. -/
def BeginIsFound (chunks : List SendingChunk) (r : RegisteredRange) : Prop :=
  (∃ ch ∈ chunks, r.first ≤ ch.first ∧ ch.first ≤ r.last) ∨
    ∀ ch ∈ chunks, ¬ (ch.first < r.first ∧ r.first ≤ ch.last)

instance (chunks : List SendingChunk) (r : RegisteredRange) : Decidable (BeginIsFound chunks r) :=
  inferInstanceAs (Decidable (_ ∨ _))

theorem find_begin_iff (hagree : ∀ ch ∈ chunks, RegisterAgrees w r ch) :
    (chunks.find? fun ch => OffsetRange.inRange ⟨r.begin, r.end_, w⟩ ch.beginOffset) = none ↔
      ∀ ch ∈ chunks, ¬ (r.first ≤ ch.first ∧ ch.first ≤ r.last) := by
  rw [List.find?_eq_none]
  exact forall₂_congr fun ch hch => not_congr (hagree ch hch).1

theorem register_registers (hr : r.InWindow w base)
    (hin : ∀ ch ∈ chunks, ch.InWindow w base) (hd : Disjoint chunks)
    (hagree : ∀ ch ∈ chunks, RegisterAgrees w r ch) (hf : BeginIsFound chunks r) :
    let reg := register w chunks r.begin r.end_ r.sendTime
    Registers w base chunks r reg.1 reg.2 := by
  unfold register
  dsimp only
  cases hfind : chunks.find? fun ch => OffsetRange.inRange ⟨r.begin, r.end_, w⟩ ch.beginOffset with
  | none =>
    have hnone := (find_begin_iff hagree).1 hfind
    apply registers_append hin hd
    intro ch hch
    have hnot := hnone ch hch
    rcases hf with ⟨c, hc, hcb⟩ | hclear
    · exact absurd hcb (hnone c hc)
    · have := hclear ch hch
      omega
  | some sch =>
    obtain ⟨hstarts, pre, post, hsplit, hpre⟩ := List.find?_eq_some_iff_append.1 hfind
    have hmem := List.mem_of_find?_eq_some hfind
    have hbegin := (hagree sch hmem).1.1 hstarts
    dsimp only
    split_ifs with hsame
    · have herase : chunks.eraseP
          (fun ch => OffsetRange.inRange ⟨r.begin, r.end_, w⟩ ch.beginOffset) = pre ++ post := by
        rw [hsplit, List.eraseP_append_right _ (fun c hc => by simpa using hpre c hc),
          List.eraseP_cons_of_pos (by simpa using hstarts)]
      rw [herase]
      exact registers_move hsplit hin hd hsame.1 hsame.2
    · apply registers_merge hr hin hd hagree
      intro ch hch hover
      -- a chunk over both ends would share the begin of `sch`
      have hne : ch ≠ sch := by
        rintro rfl
        omega
      have hap := hd.apart hch hmem hne
      obtain ⟨_, hwf, _⟩ := hin sch hmem
      omega

theorem cutUpTo_cases (hagree : RemoveAgrees w offset ch) :
    (ch.last ≤ offset.value ∧ cutUpTo w offset ch = none) ∨
    (ch.first ≤ offset.value ∧ offset.value < ch.last ∧ ∃ left, cutUpTo w offset ch = some left ∧
      left.first = offset.value ∧ left.last = ch.last ∧ left.sendTime = ch.sendTime) ∨
    (offset.value < ch.first ∧ cutUpTo w offset ch = some ch) := by
  obtain ⟨hb, hr⟩ := hagree
  unfold cutUpTo
  dsimp only
  by_cases hlt : ch.last < offset.value
  · rw [if_pos (hb.2 hlt)]
    exact Or.inl ⟨Nat.le_of_lt hlt, rfl⟩
  · rw [if_neg (mt hb.1 hlt)]
    by_cases hin : ch.first ≤ offset.value ∧ offset.value ≤ ch.last
    · rw [if_pos (hr.2 hin)]
      split_ifs with he
      · exact Or.inl ⟨Nat.le_of_eq (congrArg RingIndex.value he).symm, rfl⟩
      · have hne : offset.value ≠ ch.last := fun h => he (RingIndex.ext h)
        exact Or.inr (Or.inl ⟨hin.1, by omega, _, rfl, rfl, rfl, rfl⟩)
    · rw [if_neg (mt hr.1 hin)]
      exact Or.inr (Or.inr ⟨by omega, rfl⟩)

end Register
end SendingChunkList

namespace ChunkWorld
open SendingChunkList SendingChunk

section Step
variable (w base : ℕ)

def step (s : ChunkWorld) : ChunkCall → Option ChunkWorld
  | .register r =>
    let reg := register w s.chunks r.begin r.end_ r.sendTime
    some { s with chunks := reg.1 ++ [reg.2], registered := s.registered ++ [r] }
  | .removeUpTo offset =>
    some { s with chunks := removeUpTo w s.chunks offset, removed := s.removed ++ [offset] }

/-- All offsets lie in one window, and the times of the calls do not decrease. -/
def InDomain (s : ChunkWorld) : ChunkCall → Prop
  | .register r => r.InWindow w base ∧ ∀ old ∈ s.registered, old.sendTime ≤ r.sendTime
  | .removeUpTo offset =>
    base ≤ offset.value ∧ offset.value ≤ base + w ∧ offset.value < 65535

instance (s : ChunkWorld) : DecidablePred (InDomain w base s)
  | .register r => inferInstanceAs (Decidable
      (r.InWindow w base ∧ ∀ old ∈ s.registered, old.sendTime ≤ r.sendTime))
  | .removeUpTo offset => inferInstanceAs (Decidable
      (base ≤ offset.value ∧ offset.value ≤ base + w ∧ offset.value < 65535))

def RingAgrees (s : ChunkWorld) : ChunkCall → Prop
  | .register r => ∀ ch ∈ s.chunks, RegisterAgrees w r ch
  | .removeUpTo offset => ∀ ch ∈ s.chunks, RemoveAgrees w offset ch

instance (s : ChunkWorld) : DecidablePred (RingAgrees w s)
  | .register r => inferInstanceAs (Decidable (∀ ch ∈ s.chunks, RegisterAgrees w r ch))
  | .removeUpTo offset => inferInstanceAs (Decidable (∀ ch ∈ s.chunks, RemoveAgrees w offset ch))

end Step

def IsLatest (registered : List RegisteredRange) (i : ℕ) (t : TimePoint) : Prop :=
  (∃ r ∈ registered, r.Covers i ∧ r.sendTime = t) ∧
    ∀ r ∈ registered, r.Covers i → r.sendTime ≤ t

def IsTracked (s : ChunkWorld) (i : ℕ) : Prop :=
  (∀ offset ∈ s.removed, offset.value < i) ∧ ∃ r ∈ s.registered, r.Covers i

structure Good (s : ChunkWorld) : Prop where
  disjoint : Disjoint s.chunks
  latest : ∀ i, s.IsTracked i →
    ∃ ch, s.chunks.filter (fun ch => ch.Covers i) = [ch] ∧ IsLatest s.registered i ch.sendTime

structure Inv (w base : ℕ) (s : ChunkWorld) : Prop where
  inWindow : ∀ ch ∈ s.chunks, ch.InWindow w base
  disjoint : Disjoint s.chunks
  latest : ∀ i, s.IsTracked i →
    ∃ ch ∈ s.chunks, ch.Covers i ∧ IsLatest s.registered i ch.sendTime

def BeginIsFound (s : ChunkWorld) : ChunkCall → Prop
  | .register r => SendingChunkList.BeginIsFound s.chunks r
  | .removeUpTo _ => True

instance (s : ChunkWorld) : DecidablePred s.BeginIsFound
  | .register r => inferInstanceAs (Decidable (SendingChunkList.BeginIsFound s.chunks r))
  | .removeUpTo _ => inferInstanceAs (Decidable True)

section Runs
variable {w base : ℕ} {s : ChunkWorld} {r : RegisteredRange} {offset : SafeStreamRingIndex} {i : ℕ}
  {t : TimePoint}

theorem Inv.good (h : Inv w base s) : Good s where
  disjoint := h.disjoint
  latest := by
    intro i hi
    obtain ⟨ch, hch, hcov, ht⟩ := h.latest i hi
    exact ⟨ch, h.disjoint.filter_covers hch hcov, ht⟩

theorem Inv.init : Inv w base {} where
  inWindow := by simp
  disjoint := List.Pairwise.nil
  latest := by
    rintro i ⟨_, r, hr, _⟩
    cases hr

theorem isLatest_new {registered : List RegisteredRange}
    (hle : ∀ old ∈ registered, old.sendTime ≤ r.sendTime) (hi : r.Covers i) :
    IsLatest (registered ++ [r]) i r.sendTime := by
  refine ⟨⟨r, by simp, hi, rfl⟩, ?_⟩
  intro old hold _
  rcases List.mem_append.1 hold with hold | hold
  · exact hle old hold
  · exact Int.le_of_eq (congrArg RegisteredRange.sendTime (List.mem_singleton.1 hold))

theorem IsLatest.concat {registered : List RegisteredRange} (h : IsLatest registered i t)
    (hi : ¬ r.Covers i) : IsLatest (registered ++ [r]) i t := by
  obtain ⟨⟨old, hold, hcov, ht⟩, hmax⟩ := h
  refine ⟨⟨old, List.mem_append_left _ hold, hcov, ht⟩, ?_⟩
  intro other hother hc
  rcases List.mem_append.1 hother with hother | hother
  · exact hmax other hother hc
  · rw [List.mem_singleton.1 hother] at hc
    exact absurd hc hi

theorem Inv.register (h : Inv w base s) (hr : r.InWindow w base)
    (hle : ∀ old ∈ s.registered, old.sendTime ≤ r.sendTime)
    (hagree : ∀ ch ∈ s.chunks, RegisterAgrees w r ch)
    (hf : SendingChunkList.BeginIsFound s.chunks r) :
    ∃ s', step w s (.register r) = some s' ∧ Inv w base s' := by
  have hreg := register_registers hr h.inWindow h.disjoint hagree hf
  dsimp only at hreg
  refine ⟨_, rfl, ?_, hreg.disjoint.concat hreg.apart, ?_⟩
  · intro ch hch
    rcases List.mem_append.1 hch with hch | hch
    · exact hreg.inWindow ch hch
    · obtain ⟨h1, h2, h3, h4, _⟩ := hr
      rw [List.mem_singleton.1 hch, InWindow, hreg.first_eq, hreg.last_eq]
      exact ⟨h1, h2, h3, h4⟩
  · rintro i ⟨hrem, old, hold, hcov⟩
    by_cases hi : r.Covers i
    · refine ⟨_, List.mem_append_right _ (List.mem_singleton.2 rfl), ?_, ?_⟩
      · refine ⟨?_, ?_⟩
        · rw [hreg.first_eq]
          exact hi.1
        · rw [hreg.last_eq]
          exact hi.2
      · rw [hreg.sendTime_eq]
        exact isLatest_new hle hi
    · rcases List.mem_append.1 hold with hold | hold
      · obtain ⟨ch, hch, hc, ht⟩ := h.latest i ⟨hrem, old, hold, hcov⟩
        obtain ⟨left, hleft, hlc, hlt⟩ := hreg.kept ch hch i hc hi
        refine ⟨left, List.mem_append_left _ hleft, hlc, ?_⟩
        rw [hlt]
        exact ht.concat hi
      · rw [List.mem_singleton.1 hold] at hcov
        exact absurd hcov hi

theorem Inv.removeUpTo (h : Inv w base s) (hlo : base ≤ offset.value)
    (hagree : ∀ ch ∈ s.chunks, RemoveAgrees w offset ch) :
    ∃ s', step w s (.removeUpTo offset) = some s' ∧ Inv w base s' := by
  have hcut : ∀ ch ∈ s.chunks, ∀ left, cutUpTo w offset ch = some left →
      left.InWindow w base ∧ ch.first ≤ left.first ∧ left.last ≤ ch.last := by
    intro ch hch left hl
    have hwin := h.inWindow ch hch
    have hcases := cutUpTo_cases (hagree ch hch)
    unfold InWindow at hwin ⊢
    rw [hl] at hcases
    rcases hcases with ⟨_, hn⟩ | ⟨_, _, _, he, h1, h2, _⟩ | ⟨_, he⟩
    · cases hn
    · cases he
      omega
    · cases he
      omega
  refine ⟨_, rfl, ?_, ?_, ?_⟩
  · intro left hleft
    obtain ⟨ch, hch, hl⟩ := List.mem_filterMap.1 hleft
    exact (hcut ch hch left hl).1
  · apply Separate.filterMap h.disjoint
    intro ch hch left hl
    exact (hcut ch hch left hl).2
  · rintro i ⟨hrem, hreg⟩
    have hi : offset.value < i := hrem offset (by simp)
    obtain ⟨ch, hch, hc, ht⟩ :=
      h.latest i ⟨fun o ho => hrem o (List.mem_append_left _ ho), hreg⟩
    obtain ⟨hc1, hc2⟩ := hc
    rcases cutUpTo_cases (hagree ch hch) with
      ⟨_, _⟩ | ⟨_, _, left, he, h1, h2, h3⟩ | ⟨_, he⟩
    · omega
    · refine ⟨left, List.mem_filterMap.2 ⟨ch, hch, he⟩, ⟨by omega, by omega⟩, ?_⟩
      rw [h3]
      exact ht
    · exact ⟨ch, List.mem_filterMap.2 ⟨ch, hch, he⟩, ⟨hc1, hc2⟩, ht⟩

theorem beginIsFound_of_good (hr : r.InWindow w base)
    (hagree : ∀ ch ∈ s.chunks, RegisterAgrees w r ch) {s' : ChunkWorld}
    (hs : step w s (.register r) = some s') (hg : Good s') :
    SendingChunkList.BeginIsFound s.chunks r := by
  by_cases hex : ∃ ch ∈ s.chunks, r.first ≤ ch.first ∧ ch.first ≤ r.last
  · exact Or.inl hex
  refine Or.inr fun ch hch hover => ?_
  have hfind := (find_begin_iff hagree).2 fun c hc hcb => hex ⟨c, hc, hcb⟩
  cases hs
  have hd := hg.disjoint
  simp only [SendingChunkList.register, hfind] at hd
  obtain ⟨_, _, hcross⟩ := List.pairwise_append.1 hd
  have hap := hcross ch hch ⟨r.begin, r.end_, 0, r.sendTime⟩ (List.mem_singleton.2 rfl)
  change ch.last < r.first ∨ r.last < ch.first at hap
  obtain ⟨_, hfl, _⟩ := hr
  omega

/-- Below half of the ring the comparisons of every call in the domain agree. -/
theorem ringAgrees_of_lt (hw : w < 32768) (h : Inv w base s) {call : ChunkCall}
    (hd : InDomain w base s call) : RingAgrees w s call := by
  cases call with
  | register r => exact fun ch hch => registerAgrees_of_lt hw hd.1 (h.inWindow ch hch)
  | removeUpTo offset =>
    exact fun ch hch => removeAgrees_of_lt hw (h.inWindow ch hch) hd.1 hd.2.1

/-- Where the ring comparisons agree with the positions, which a window below half of the ring
ensures, the chunks are disjoint and carry the latest times after every call of a run if and
only if no `Register` begins inside a chunk while no chunk begins inside its range. -/
theorem chunks_disjoint_latest_iff (w base : ℕ) (calls : List ChunkCall)
    (hd : Along (step w) (InDomain w base) {} calls)
    (hagree : w < 32768 ∨ Along (step w) (RingAgrees w) {} calls) :
    Along (step w) BeginIsFound {} calls ↔
      ∀ made, made <+: calls → ∃ s, run (step w) {} made = some s ∧ Good s := by
  have hd' : Along (step w)
      (fun s call => InDomain w base s call ∧ (w < 32768 ∨ RingAgrees w s call)) {} calls := by
    rcases hagree with hw | hagree
    · exact hd.mono fun s call h => ⟨h, Or.inl hw⟩
    · exact (hd.and hagree).mono fun s call h => ⟨h.1, Or.inr h.2⟩
  have hring : ∀ s call, Inv w base s → InDomain w base s call →
      (w < 32768 ∨ RingAgrees w s call) → RingAgrees w s call := by
    intro s call hi hdom h
    rcases h with hw | h
    · exact ringAgrees_of_lt hw hi hdom
    · exact h
  refine along_iff_within (I := Inv w base) (fun s h => h.good) ?_ ?_ Inv.init hd'
  · intro s call hi hdom hp
    have hr := hring s call hi hdom.1 hdom.2
    cases call with
    | register r => exact hi.register hdom.1.1 hdom.1.2 hr hp
    | removeUpTo offset => exact hi.removeUpTo hdom.1.1 hr
  · intro s call s' hi hdom hs hg
    have hr := hring s call hi hdom.1 hdom.2
    cases call with
    | register r => exact beginIsFound_of_good hdom.1.1 hr hs hg
    | removeUpTo offset => trivial

/-- The third range covers one chunk and cuts the next one. -/
theorem chunks_disjoint_latest_resent :
    ∃ s, run (step 10240) {} [.register ⟨.ofVal 0, .ofVal 3, 0⟩,
        .register ⟨.ofVal 4, .ofVal 7, 1⟩, .register ⟨.ofVal 0, .ofVal 5, 2⟩,
        .removeUpTo (.ofVal 1)] = some s ∧ Good s :=
  (chunks_disjoint_latest_iff 10240 0 [.register ⟨.ofVal 0, .ofVal 3, 0⟩,
    .register ⟨.ofVal 4, .ofVal 7, 1⟩, .register ⟨.ofVal 0, .ofVal 5, 2⟩,
    .removeUpTo (.ofVal 1)] (by decide) (Or.inl (by decide))).1 (by decide) _ List.prefix_rfl

end Runs

/-- Bytes 2 to 5 are registered while bytes 0 to 3 are outstanding: the two chunks overlap. -/
theorem later_register_overlaps :
    ¬ ∀ (w base : ℕ) (calls : List ChunkCall), w ≤ 65535 →
      Along (step w) (InDomain w base) {} calls →
      ∃ s, run (step w) {} calls = some s ∧ Good s := by
  intro h
  obtain ⟨s, hr, hg⟩ := h 10240 0
    [.register ⟨.ofVal 0, .ofVal 3, 0⟩, .register ⟨.ofVal 2, .ofVal 5, 1⟩] (by decide) (by decide)
  have hchunks : s.chunks = [⟨.ofVal 0, .ofVal 3, 0, 0⟩, ⟨.ofVal 2, .ofVal 5, 0, 1⟩] :=
    run_observe (f := ChunkWorld.chunks) hr (by decide)
  have hd := hg.disjoint
  rw [hchunks] at hd
  exact absurd hd (by decide)

end ChunkWorld
end AetherClient
