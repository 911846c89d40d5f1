import AetherClient.Telemetry
import Mathlib.Data.List.Induction
import Mathlib.Order.Nat
import Mathlib.Algebra.BigOperators.Group.List.Basic
import Mathlib.Algebra.GroupWithZero.Nat

set_option autoImplicit false

namespace AetherClient
open StdMap

namespace MetricCall

def count? : MetricCall → Option ℕ
  | .addCount count => some count.toNat
  | _ => none

def duration? : MetricCall → Option ℕ
  | .addDuration duration => some duration.toNat
  | _ => none

def applyAll (calls : List MetricCall) (m : Metric) : Metric := calls.foldl (fun m c => c.apply m) m

end MetricCall

namespace Metric

theorem toNat_larger (x y : BitVec 32) : (larger x y).toNat = max x.toNat y.toNat := by
  unfold larger
  split
  · next h => exact (Nat.max_eq_right (Nat.le_of_lt (BitVec.lt_def.mp h))).symm
  · next h => exact (Nat.max_eq_left (Nat.le_of_not_lt fun hlt => h (BitVec.lt_def.mpr hlt))).symm

theorem toNat_smaller (x y : BitVec 32) : (smaller x y).toNat = min x.toNat y.toNat := by
  unfold smaller
  split
  · next h => exact (Nat.min_eq_right (Nat.le_of_lt (BitVec.lt_def.mp h))).symm
  · next h => exact (Nat.min_eq_left (Nat.le_of_not_lt fun hlt => h (BitVec.lt_def.mpr hlt))).symm

theorem eq_iff_toNat {m m' : Metric} : m = m' ↔
    m.invocationsCount.toNat = m'.invocationsCount.toNat ∧
      m.maxDuration.toNat = m'.maxDuration.toNat ∧ m.sumDuration.toNat = m'.sumDuration.toNat ∧
      m.minDuration.toNat = m'.minDuration.toNat := by
  rw [BitVec.toNat_inj, BitVec.toNat_inj, BitVec.toNat_inj, BitVec.toNat_inj]
  exact Metric.mk.injEq .. ▸ Iff.rfl

variable (m : Metric) (calls : List MetricCall)

theorem field_applyAll (field : Metric → ℕ) {value? : MetricCall → Option ℕ} {combine : ℕ → ℕ → ℕ}
    (h : ∀ (call : MetricCall) m, field (call.apply m) = (value? call).elim (field m) (combine (field m))) :
    field (MetricCall.applyAll calls m) = (calls.filterMap value?).foldl combine (field m) := by
  induction calls generalizing m with
  | nil => rfl
  | cons call calls ih =>
    have hcall := h call m
    rw [MetricCall.applyAll, List.foldl_cons, ← MetricCall.applyAll, ih]
    cases hvalue : value? call with
    | none =>
      rw [hvalue] at hcall
      rw [List.filterMap_cons_none hvalue, hcall, Option.elim_none]
    | some v =>
      rw [hvalue] at hcall
      rw [List.filterMap_cons_some hvalue, hcall, Option.elim_some, List.foldl_cons]

theorem foldl_add_mod (values : List ℕ) (total : ℕ) (htotal : total < 2 ^ 32) :
    values.foldl (fun total value => (total + value) % 2 ^ 32) total =
      (total + values.sum) % 2 ^ 32 := by
  induction values generalizing total with
  | nil => exact (Nat.mod_eq_of_lt htotal).symm
  | cons value values ih =>
    rw [List.foldl_cons, ih _ (Nat.mod_lt _ (by decide)), List.sum_cons]
    omega

theorem invocationsCount_applyAll : (MetricCall.applyAll calls m).invocationsCount.toNat =
    (m.invocationsCount.toNat + (calls.filterMap MetricCall.count?).sum) % 2 ^ 32 := by
  rw [← foldl_add_mod _ _ m.invocationsCount.isLt]
  apply field_applyAll m calls (fun m => m.invocationsCount.toNat)
  intro call m
  cases call with
  | stream => rfl
  | addDuration duration => rfl
  | addCount count => exact BitVec.toNat_add _ _

theorem sumDuration_applyAll : (MetricCall.applyAll calls m).sumDuration.toNat =
    (m.sumDuration.toNat + (calls.filterMap MetricCall.duration?).sum) % 2 ^ 32 := by
  rw [← foldl_add_mod _ _ m.sumDuration.isLt]
  apply field_applyAll m calls (fun m => m.sumDuration.toNat)
  intro call m
  cases call with
  | stream => rfl
  | addCount count => rfl
  | addDuration duration => exact BitVec.toNat_add _ _

theorem maxDuration_applyAll : (MetricCall.applyAll calls m).maxDuration.toNat =
    (calls.filterMap MetricCall.duration?).foldl max m.maxDuration.toNat := by
  apply field_applyAll m calls (fun m => m.maxDuration.toNat)
  intro call m
  cases call with
  | stream => rfl
  | addCount count => rfl
  | addDuration duration => exact toNat_larger _ _

theorem minDuration_applyAll : (MetricCall.applyAll calls m).minDuration.toNat =
    (calls.filterMap MetricCall.duration?).foldl min m.minDuration.toNat := by
  apply field_applyAll m calls (fun m => m.minDuration.toNat)
  intro call m
  cases call with
  | stream => rfl
  | addCount count => rfl
  | addDuration duration => exact toNat_smaller _ _

structure Records (counts durations : List ℕ) : Prop where
  count : m.invocationsCount.toNat = counts.sum
  sum : m.sumDuration.toNat = durations.sum
  max : durations.max? = some m.maxDuration.toNat
  min : durations.min? = some m.minDuration.toNat

end Metric

section Lookup
variable {n : ℕ} (fresh : Metric) (key : BitVec 64 → BitVec n)

def callsFor (events : List MetricEvent) (k : BitVec n) : List MetricCall :=
  (events.filter fun e => key e.index = k).map MetricEvent.call

theorem ascending_record (events : List MetricEvent) :
    Ascending keyLess (events.foldl (recordMetric fresh key) []) := by
  induction events using List.reverseRecOn with
  | nil => exact List.Pairwise.nil
  | append_singleton events e ih =>
    rw [List.foldl_concat]
    exact ascending_access strictOrder_keyLess ih

/-- A trap holds for a key what its calls make of a fresh metric. -/
theorem lookup_record (events : List MetricEvent) (k : BitVec n) :
    (events.foldl (recordMetric fresh key) []).lookup k =
      if callsFor key events k = [] then none
      else some (MetricCall.applyAll (callsFor key events k) fresh) := by
  induction events using List.reverseRecOn with
  | nil => rfl
  | append_singleton events e ih =>
    rw [List.foldl_concat, recordMetric]
    by_cases hkey : key e.index = k
    · subst hkey
      have hcalls : callsFor key (events ++ [e]) (key e.index) =
          callsFor key events (key e.index) ++ [e.call] := by
        simp [callsFor]
      have hlookup : ((events.foldl (recordMetric fresh key) []).lookup (key e.index)).getD fresh =
          MetricCall.applyAll (callsFor key events (key e.index)) fresh := by
        rw [ih]
        split
        · next h => rw [h]; rfl
        · rfl
      rw [lookup_access strictOrder_keyLess (ascending_record fresh key events), hlookup, hcalls,
        if_neg (List.append_ne_nil_of_right_ne_nil _ (List.cons_ne_nil _ _)),
        MetricCall.applyAll, MetricCall.applyAll, List.foldl_concat]
    · have hcalls : callsFor key (events ++ [e]) k = callsFor key events k := by
        simp [callsFor, hkey]
      rw [lookup_access_of_ne strictOrder_keyLess (Ne.symm hkey), hcalls]
      exact ih

end Lookup

namespace MetricEvent

def counts (events : List MetricEvent) : List ℕ := events.filterMap fun e => e.call.count?

def durations (events : List MetricEvent) : List ℕ := events.filterMap fun e => e.call.duration?

variable (events : List MetricEvent) (index : BitVec 64)

def ofIndex : List MetricEvent := events.filter fun e => e.index = index

/-- The events of the declarations that the statistics trap does not tell from this one. -/
def mixedWith : List MetricEvent :=
  events.filter fun e => e.index ≠ index ∧ packedIndex e.index = packedIndex index

/-- Both traps hold the same metric for a declaration, and it is what was recorded. -/
def Agree : Prop :=
  ∃ m, (MetricsStore.recordAll events).lookup (packedIndex index) = some m ∧
    (IoStreamTrap.recordAll events).lookup index = some m ∧
    m.Records (counts (ofIndex events index)) (durations (ofIndex events index))

/-- A duration of zero was recorded, and what was recorded for the declarations that are not told
from this one does not change the sums and the maximum. -/
structure Shared : Prop where
  zero : 0 ∈ durations (ofIndex events index)
  counts : 2 ^ 32 ∣ (counts (mixedWith events index)).sum
  durations : 2 ^ 32 ∣ (durations (mixedWith events index)).sum
  max : ∀ d ∈ MetricEvent.durations (mixedWith events index),
    ∃ d' ∈ MetricEvent.durations (ofIndex events index), d ≤ d'

variable {events index}

theorem lt_of_mem_durations {d : ℕ} (h : d ∈ durations events) : d < 2 ^ 32 := by
  obtain ⟨e, -, he⟩ := List.mem_filterMap.mp h
  cases hcall : e.call with
  | stream => simp [hcall, MetricCall.duration?] at he
  | addCount count => simp [hcall, MetricCall.duration?] at he
  | addDuration duration =>
    rw [hcall] at he
    obtain rfl : duration.toNat = d := Option.some.inj he
    exact duration.isLt

theorem exists_held {n : ℕ} (fresh : Metric) (key : BitVec 64 → BitVec n)
    (h : durations (ofIndex events index) ≠ []) :
    ∃ m, (events.foldl (recordMetric fresh key) []).lookup (key index) = some m ∧
      m.invocationsCount.toNat = (fresh.invocationsCount.toNat +
        (counts (events.filter fun e => key e.index = key index)).sum) % 2 ^ 32 ∧
      m.sumDuration.toNat = (fresh.sumDuration.toNat +
        (durations (events.filter fun e => key e.index = key index)).sum) % 2 ^ 32 ∧
      m.maxDuration.toNat = (durations (events.filter fun e => key e.index = key index)).foldl max
        fresh.maxDuration.toNat ∧
      m.minDuration.toNat = (durations (events.filter fun e => key e.index = key index)).foldl min
        fresh.minDuration.toNat := by
  obtain ⟨d, hd⟩ := List.exists_mem_of_ne_nil _ h
  obtain ⟨e, he, -⟩ := List.mem_filterMap.mp hd
  obtain ⟨he, hindex⟩ := List.mem_filter.mp he
  have hcalls : callsFor key events (key index) ≠ [] := by
    apply List.ne_nil_of_mem (a := e.call)
    apply List.mem_map_of_mem
    rw [List.mem_filter, of_decide_eq_true hindex]
    exact ⟨he, decide_eq_true rfl⟩
  have hvalues (value? : MetricCall → Option ℕ) :
      (callsFor key events (key index)).filterMap value? =
        (events.filter fun e => key e.index = key index).filterMap fun e => value? e.call :=
    List.filterMap_map
  refine ⟨_, (lookup_record fresh key events (key index)).trans (if_neg hcalls), ?_, ?_, ?_, ?_⟩
  · rw [Metric.invocationsCount_applyAll, hvalues, counts]
  · rw [Metric.sumDuration_applyAll, hvalues, durations]
  · rw [Metric.maxDuration_applyAll, hvalues, durations]
  · rw [Metric.minDuration_applyAll, hvalues, durations]

theorem foldl_max_le_iff (values : List ℕ) (start bound : ℕ) :
    values.foldl max start ≤ bound ↔ start ≤ bound ∧ ∀ d ∈ values, d ≤ bound := by
  induction values generalizing start with
  | nil => simp
  | cons value values ih =>
    rw [List.foldl_cons, ih, Nat.max_le, List.forall_mem_cons, and_assoc]

theorem foldl_min_zero (values : List ℕ) : values.foldl min 0 = 0 := by
  induction values with
  | nil => rfl
  | cons value values ih => rw [List.foldl_cons, Nat.zero_min, ih]

theorem io_records (hcounts : (counts (ofIndex events index)).sum < 2 ^ 32)
    (hdurations : (durations (ofIndex events index)).sum < 2 ^ 32)
    (h : durations (ofIndex events index) ≠ []) :
    ∃ m, (IoStreamTrap.recordAll events).lookup index = some m ∧
      m.Records (counts (ofIndex events index)) (durations (ofIndex events index)) := by
  obtain ⟨m, hlookup, hcount, hsum, hmax, hmin⟩ :=
    exists_held { minDuration := BitVec.allOnes 32 } id h
  refine ⟨m, hlookup, ?_, ?_, ?_, ?_⟩
  · rw [hcount]
    exact (congrArg (· % 2 ^ 32) (Nat.zero_add _)).trans (Nat.mod_eq_of_lt hcounts)
  · rw [hsum]
    exact (congrArg (· % 2 ^ 32) (Nat.zero_add _)).trans (Nat.mod_eq_of_lt hdurations)
  · obtain ⟨d, hd⟩ := Option.isSome_iff_exists.mp (List.isSome_max?_iff.mpr h)
    have hheld : m.maxDuration.toNat = max 0 ((durations (ofIndex events index)).max?.getD 0) :=
      hmax.trans List.foldl_max
    rw [hd, Option.getD_some, Nat.zero_max] at hheld
    rw [hd, hheld]
  · obtain ⟨d, hd⟩ := Option.isSome_iff_exists.mp (List.isSome_min?_iff.mpr h)
    have hlt : d < 2 ^ 32 := lt_of_mem_durations (List.min?_eq_some_iff.mp hd).1
    have hheld : m.minDuration.toNat =
        min (2 ^ 32 - 1) ((durations (ofIndex events index)).min?.getD (2 ^ 32 - 1)) :=
      hmin.trans List.foldl_min
    rw [hd, Option.getD_some, Nat.min_eq_right (by omega)] at hheld
    rw [hd, hheld]

theorem perm_mixed (events : List MetricEvent) (index : BitVec 64) :
    (events.filter fun e => packedIndex e.index = packedIndex index).Perm
      (ofIndex events index ++ mixedWith events index) := by
  have hsplit := List.filter_append_perm (fun e => decide (e.index = index))
    (events.filter fun e => packedIndex e.index = packedIndex index)
  rw [List.filter_filter, List.filter_filter] at hsplit
  have hown : events.filter (fun e => decide (e.index = index) &&
      decide (packedIndex e.index = packedIndex index)) = ofIndex events index := by
    apply List.filter_congr
    intro e _
    by_cases he : e.index = index <;> simp [he]
  have hother : events.filter (fun e => !decide (e.index = index) &&
      decide (packedIndex e.index = packedIndex index)) = mixedWith events index := by
    apply List.filter_congr
    intro e _
    by_cases he : e.index = index <;> simp [he]
  rw [hown, hother] at hsplit
  exact hsplit.symm

theorem sum_mixed_iff (value? : MetricEvent → Option ℕ)
    (hlt : ((ofIndex events index).filterMap value?).sum < 2 ^ 32) :
    (0 + ((events.filter fun e => packedIndex e.index = packedIndex index).filterMap value?).sum) %
        2 ^ 32 = ((ofIndex events index).filterMap value?).sum ↔
      2 ^ 32 ∣ ((mixedWith events index).filterMap value?).sum := by
  have hsum := ((perm_mixed events index).filterMap value?).sum_eq
  rw [List.filterMap_append, List.sum_append] at hsum
  omega

theorem max_mixed_iff {d : ℕ} (hmax : (durations (ofIndex events index)).max? = some d) :
    (durations (events.filter fun e => packedIndex e.index = packedIndex index)).foldl max 0 = d ↔
      ∀ d' ∈ durations (mixedWith events index), d' ≤ d := by
  obtain ⟨hmem, hle⟩ := List.max?_eq_some_iff.mp hmax
  have hall : ∀ d', d' ∈ durations (events.filter fun e => packedIndex e.index = packedIndex index) ↔
      d' ∈ durations (ofIndex events index) ∨ d' ∈ durations (mixedWith events index) := by
    intro d'
    have hmem := ((perm_mixed events index).filterMap fun e => e.call.duration?).mem_iff (a := d')
    rw [List.filterMap_append, List.mem_append] at hmem
    exact hmem
  have hge := ((foldl_max_le_iff _ 0 _).mp (Nat.le_refl _)).2 d ((hall d).mpr (.inl hmem))
  constructor
  · intro heq d' hd'
    rw [← heq]
    exact ((foldl_max_le_iff _ 0 _).mp (Nat.le_refl _)).2 d' ((hall d').mpr (.inr hd'))
  · intro hmixed
    refine Nat.le_antisymm ((foldl_max_le_iff _ 0 _).mpr ⟨Nat.zero_le d, ?_⟩) hge
    intro d' hd'
    obtain hd' | hd' := (hall d').mp hd'
    · exact hle d' hd'
    · exact hmixed d' hd'

/-- With sums below `2 ^ 32`, the traps agree on a declaration with a duration if and only if a zero
was among its durations, up to declarations whose indexes differ in the high half only. -/
theorem agree_iff (events : List MetricEvent) (index : BitVec 64)
    (hcounts : (counts (ofIndex events index)).sum < 2 ^ 32)
    (hdurations : (durations (ofIndex events index)).sum < 2 ^ 32)
    (h : durations (ofIndex events index) ≠ []) : Agree events index ↔ Shared events index := by
  obtain ⟨io, hio, hrecords⟩ := io_records hcounts hdurations h
  obtain ⟨m, hlookup, hcount, hsum, hmax, hmin⟩ := exists_held {} packedIndex h
  have hagree : Agree events index ↔ m = io := by
    constructor
    · rintro ⟨m', hstatistics, hstream, -⟩
      exact Option.some.inj ((hlookup.symm.trans hstatistics).trans (hstream.symm.trans hio))
    · rintro rfl
      exact ⟨m, hlookup, hio, hrecords⟩
  have hsameCount : m.invocationsCount.toNat = io.invocationsCount.toNat ↔
      2 ^ 32 ∣ (counts (mixedWith events index)).sum := by
    rw [hcount, hrecords.count]
    exact sum_mixed_iff _ hcounts
  have hsameSum : m.sumDuration.toNat = io.sumDuration.toNat ↔
      2 ^ 32 ∣ (durations (mixedWith events index)).sum := by
    rw [hsum, hrecords.sum]
    exact sum_mixed_iff _ hdurations
  have hsameMax : m.maxDuration.toNat = io.maxDuration.toNat ↔
      ∀ d ∈ durations (mixedWith events index), d ≤ io.maxDuration.toNat := by
    rw [hmax]
    exact max_mixed_iff hrecords.max
  have hsameMin : m.minDuration.toNat = io.minDuration.toNat ↔
      0 ∈ durations (ofIndex events index) := by
    obtain ⟨hmem, hle⟩ := List.min?_eq_some_iff.mp hrecords.min
    rw [hmin.trans (foldl_min_zero _)]
    constructor
    · intro hzero
      rw [hzero]
      exact hmem
    · intro hzero
      exact (Nat.le_zero.mp (hle 0 hzero)).symm
  obtain ⟨hmem, hle⟩ := List.max?_eq_some_iff.mp hrecords.max
  rw [hagree, Metric.eq_iff_toNat, hsameCount, hsameSum, hsameMax, hsameMin]
  constructor
  · rintro ⟨hcounts, hmax, hdurations, hzero⟩
    exact ⟨hzero, hcounts, hdurations, fun d hd => ⟨_, hmem, hmax d hd⟩⟩
  · intro hshared
    refine ⟨hshared.counts, ?_, hshared.durations, hshared.zero⟩
    intro d hd
    obtain ⟨d', hd', hdd'⟩ := hshared.max d hd
    exact Nat.le_trans hdd' (hle d' hd')

theorem agree_of_zero :
    Agree [⟨7, .addDuration 0⟩, ⟨7, .addCount 1⟩, ⟨7, .addDuration 5⟩] 7 :=
  (agree_iff _ _ (by decide) (by decide) (by decide)).mpr
    ⟨by decide, by decide, by decide, by decide⟩

/-- One duration of five nanoseconds: the statistics trap holds a minimum of zero. -/
theorem not_agree_of_one_duration :
    ¬∀ (events : List MetricEvent) (index : BitVec 64),
      (counts (ofIndex events index)).sum < 2 ^ 32 →
      (durations (ofIndex events index)).sum < 2 ^ 32 →
      durations (ofIndex events index) ≠ [] → Agree events index := by
  intro hall
  obtain ⟨m, hstatistics, hstream, -⟩ :=
    hall [⟨7, .addDuration 5⟩] 7 (by decide) (by decide) (by decide)
  have hsame := hstatistics.trans hstream.symm
  revert hsame
  decide

end MetricEvent
end AetherClient
