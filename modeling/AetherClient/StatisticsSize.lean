import AetherClient.Telemetry
import AetherClient.Runs
import Mathlib.Algebra.BigOperators.Group.List.Basic
import Mathlib.Algebra.GroupWithZero.Nat
import Mathlib.Order.Nat

set_option autoImplicit false

namespace AetherClient
open StdMap Runs

namespace Statistics

def contentSize (s : Statistics) : ℕ :=
  (s.logs.map List.length).sum + s.metrics.length * MetricsStore.metricSize

def openLogSize (s : Statistics) (l : LogStream) : ℕ := ((s.logs.drop l.size).map List.length).sum

def openMetricSize (s : Statistics) (m : MetricStream) : ℕ :=
  (s.metrics.length - m.size) * MetricsStore.metricSize

/-- The size is right but for what the open streams will add. -/
structure Accounted (s : Statistics) (logs : List LogStream) (metrics : List MetricStream) :
    Prop where
  ascending : Ascending keyLess s.metrics
  one : logs.length ≤ 1
  log : ∀ l ∈ logs, l.entry = l.size ∧ s.logs.length = l.size + 1
  metric : ∀ m ∈ metrics, m.size ≤ s.metrics.length ∧ m.index ∈ s.metrics.map Prod.fst
  size : s.size + (logs.map s.openLogSize).sum + (metrics.map s.openMetricSize).sum = s.contentSize

theorem lastEntriesSize_one (s : Statistics) {entries : List (List UInt8)} {entry : List UInt8}
    (h : s.logs = entries ++ [entry]) : s.lastEntriesSize 1 = entry.length := by
  rw [lastEntriesSize, lastEntriesSize, h, List.getLast?_concat, Option.getD_some, Nat.zero_add]

theorem modify_concat {α : Type} (xs : List α) (x : α) (f : α → α) :
    (xs ++ [x]).modify xs.length f = xs ++ [f x] := by
  induction xs with
  | nil => rfl
  | cons y xs ih => exact congrArg (y :: ·) ih

namespace Accounted
variable {s : Statistics} {logs : List LogStream} {metrics : List MetricStream}

theorem nil : Accounted {} [] [] where
  ascending := List.Pairwise.nil
  one := Nat.zero_le 1
  log := fun _ hl => nomatch hl
  metric := fun _ hm => nomatch hm
  size := rfl

theorem perm (h : Accounted s logs metrics) {logs' : List LogStream} {metrics' : List MetricStream}
    (hlogs : logs.Perm logs') (hmetrics : metrics.Perm metrics') : Accounted s logs' metrics' where
  ascending := h.ascending
  one := hlogs.length_eq ▸ h.one
  log := fun l hl => h.log l (hlogs.mem_iff.mpr hl)
  metric := fun m hm => h.metric m (hmetrics.mem_iff.mpr hm)
  size := by rw [← (hlogs.map _).sum_eq, ← (hmetrics.map _).sum_eq, h.size]

theorem openLog (h : Accounted s [] metrics) (number : ℕ) :
    Accounted (s.openLog number).1 [(s.openLog number).2] metrics where
  ascending := h.ascending
  one := Nat.le_refl 1
  log := by
    intro l hl
    obtain rfl := List.mem_singleton.mp hl
    exact ⟨rfl, List.length_append⟩
  metric := h.metric
  size := by
    have hsize := h.size
    simp only [contentSize, List.map_nil, List.sum_nil, Nat.add_zero] at hsize
    simp only [Statistics.openLog, openLogSize, contentSize, List.drop_left, List.map_append,
      List.map_cons, List.map_nil, List.length_nil, List.sum_append, List.sum_cons, List.sum_nil,
      Nat.add_zero]
    exact hsize

theorem exists_entry {l : LogStream} (h : Accounted s [l] metrics) :
    ∃ entries entry, s.logs = entries ++ [entry] ∧ l.size = entries.length ∧
      l.entry = entries.length := by
  obtain ⟨hentry, hlen⟩ := h.log l (List.mem_singleton_self l)
  have hne : s.logs ≠ [] := List.length_pos_iff.mp (by omega)
  refine ⟨s.logs.dropLast, s.logs.getLast hne, (List.dropLast_append_getLast hne).symm, ?_, ?_⟩
  · rw [List.length_dropLast]
    omega
  · rw [List.length_dropLast]
    omega

theorem eq_singleton {l : LogStream} (h : Accounted s logs metrics) (hl : l ∈ logs) : logs = [l] := by
  obtain ⟨l', rfl⟩ := List.length_eq_one_iff.mp
    (Nat.le_antisymm h.one (List.length_pos_of_mem hl))
  rw [List.mem_singleton.mp hl]

theorem write (h : Accounted s logs metrics) {l : LogStream} (hl : l ∈ logs) (bytes : List UInt8) :
    Accounted (s.write l.entry bytes) logs metrics := by
  obtain rfl := h.eq_singleton hl
  obtain ⟨entries, entry, hlogs, hsize, hentry⟩ := h.exists_entry
  have hwritten : (s.write l.entry bytes).logs = entries ++ [entry ++ bytes] := by
    rw [Statistics.write, hlogs, hentry]
    exact modify_concat entries entry (· ++ bytes)
  have hcount := h.size
  simp only [contentSize, openLogSize, hlogs, hsize, List.drop_left, List.map_cons, List.map_nil,
    List.sum_cons, List.sum_nil, List.map_append, List.sum_append] at hcount
  refine ⟨h.ascending, h.one, ?_, h.metric, ?_⟩
  · intro l' hl'
    obtain ⟨hentry', hlen⟩ := h.log l' hl'
    rw [hwritten]
    rw [hlogs] at hlen
    exact ⟨hentry', by simpa using hlen⟩
  · simp only [contentSize, openLogSize, hwritten, hsize, List.drop_left, List.map_cons,
      List.map_nil, List.sum_cons, List.sum_nil, List.map_append, List.sum_append,
      List.length_append]
    change s.size + _ + (metrics.map s.openMetricSize).sum = _ + s.metrics.length * _
    omega

theorem closeLog {l : LogStream} (h : Accounted s (l :: logs) metrics) :
    Accounted (s.closeLog l) logs metrics := by
  obtain rfl : logs = [] := List.length_eq_zero_iff.mp (Nat.le_zero.mp (Nat.le_of_succ_le_succ h.one))
  obtain ⟨entries, entry, hlogs, hsize, -⟩ := h.exists_entry
  have hclosed : s.closeLog l = { s with size := s.size + entry.length } := by
    have hlen : s.logs.length = entries.length + 1 := by rw [hlogs]; simp
    rw [Statistics.closeLog, hsize, hlen, if_neg (by omega), Nat.add_sub_cancel_left,
      updateLogsSize, lastEntriesSize_one s hlogs]
  have hcount := h.size
  simp only [openLogSize, hlogs, hsize, List.drop_left, List.map_cons, List.map_nil, List.sum_cons,
    List.sum_nil, Nat.add_zero] at hcount
  rw [hclosed]
  exact ⟨h.ascending, Nat.zero_le 1, fun _ hl => (nomatch hl), h.metric, hcount⟩

theorem of_keys (h : Accounted s logs metrics) {held : List (BitVec 32 × Metric)}
    (hkeys : held.map Prod.fst = s.metrics.map Prod.fst) :
    Accounted { s with metrics := held } logs metrics := by
  have hlen : held.length = s.metrics.length := by
    simpa only [List.length_map] using congrArg List.length hkeys
  refine ⟨?_, h.one, h.log, ?_, ?_⟩
  · have hpairs : (s.metrics.map Prod.fst).Pairwise fun k k' => keyLess k k' = true :=
      List.pairwise_map.mpr h.ascending
    rw [← hkeys] at hpairs
    exact List.pairwise_map.mp hpairs
  · intro m hm
    show m.size ≤ held.length ∧ m.index ∈ held.map Prod.fst
    rw [hlen, hkeys]
    exact h.metric m hm
  · have hcount := h.size
    have hopen : (metrics.map { s with metrics := held }.openMetricSize).sum =
        (metrics.map s.openMetricSize).sum := by
      apply congrArg List.sum
      apply List.map_congr_left
      intro m _
      show (held.length - m.size) * _ = _
      rw [hlen, openMetricSize]
    rw [hopen]
    show s.size + (logs.map s.openLogSize).sum + _ = (s.logs.map List.length).sum + held.length * _
    rw [hcount, hlen, contentSize]

theorem callMetric (h : Accounted s logs metrics) {index : BitVec 32}
    (hindex : index ∈ s.metrics.map Prod.fst) (call : MetricCall) :
    Accounted (s.callMetric index call) logs metrics :=
  h.of_keys (keys_access_of_mem strictOrder_keyLess h.ascending hindex)

theorem closeMetric {m : MetricStream} (h : Accounted s logs (m :: metrics)) :
    Accounted (s.closeMetric m) logs metrics := by
  have hclosed : s.closeMetric m = { s with size := s.size + s.openMetricSize m } := by
    rw [Statistics.closeMetric]
    split
    · next hle => rw [openMetricSize, Nat.sub_eq_zero_of_le hle, Nat.zero_mul, Nat.add_zero]
    · rfl
  have hcount := h.size
  rw [List.map_cons, List.sum_cons] at hcount
  rw [hclosed]
  refine ⟨h.ascending, h.one, h.log, fun m' hm' => h.metric m' (List.mem_cons_of_mem m hm'), ?_⟩
  show s.size + s.openMetricSize m + (logs.map s.openLogSize).sum +
    (metrics.map s.openMetricSize).sum = s.contentSize
  omega

theorem add_stream (h : Accounted s logs metrics) {m : MetricStream}
    (hindex : m.index ∈ s.metrics.map Prod.fst) (hsize : m.size = s.metrics.length) :
    Accounted s logs (m :: metrics) := by
  refine ⟨h.ascending, h.one, h.log, ?_, ?_⟩
  · intro m' hm'
    obtain rfl | hm' := List.mem_cons.mp hm'
    · exact ⟨Nat.le_of_eq hsize, hindex⟩
    · exact h.metric m' hm'
  · rw [List.map_cons, List.sum_cons, openMetricSize, hsize, Nat.sub_self, Nat.zero_mul,
      Nat.zero_add, h.size]

theorem openMetric (h : Accounted s logs metrics) (number : ℕ) {index : BitVec 32}
    (hindex : index ∈ s.metrics.map Prod.fst ∨ metrics = []) :
    Accounted (s.openMetric number index).1 logs ((s.openMetric number index).2 :: metrics) := by
  by_cases hmem : index ∈ s.metrics.map Prod.fst
  · have hkeys : (s.callMetric index .stream).metrics.map Prod.fst = s.metrics.map Prod.fst :=
      keys_access_of_mem strictOrder_keyLess h.ascending hmem
    apply (h.callMetric hmem .stream).add_stream
    · rw [hkeys]
      exact hmem
    · show s.metrics.length = (s.callMetric index .stream).metrics.length
      simpa only [List.length_map] using (congrArg List.length hkeys).symm
  · obtain rfl := hindex.resolve_left hmem
    have hlen : (s.callMetric index .stream).metrics.length = s.metrics.length + 1 :=
      (length_access strictOrder_keyLess h.ascending).trans (if_neg hmem)
    have hcount := h.size
    rw [List.map_nil, List.sum_nil, Nat.add_zero] at hcount
    refine ⟨ascending_access strictOrder_keyLess h.ascending, h.one, h.log, ?_, ?_⟩
    · intro m hm
      obtain rfl := List.mem_singleton.mp hm
      have hlookup : (s.callMetric index .stream).metrics.lookup index = some _ :=
        lookup_access strictOrder_keyLess h.ascending
      exact ⟨hlen ▸ Nat.le_succ _, List.mem_map_of_mem (f := Prod.fst) (mem_of_lookup hlookup)⟩
    · show s.size + (logs.map s.openLogSize).sum +
        (((s.callMetric index .stream).metrics.length - s.metrics.length) * _ + 0) =
        (s.logs.map List.length).sum + (s.callMetric index .stream).metrics.length * _
      rw [hcount, hlen, contentSize, Nat.add_sub_cancel_left, Nat.add_mul]
      omega

end Accounted

def Covers (s other : Statistics) : Prop :=
  other.logs = [] ∧ ∀ e ∈ other.metrics, e.1 ∈ s.metrics.map Prod.fst

instance (s other : Statistics) : Decidable (s.Covers other) :=
  inferInstanceAs (Decidable (_ ∧ ∀ e ∈ other.metrics, e.1 ∈ s.metrics.map Prod.fst))

theorem keys_appendMetric {held : List (BitVec 32 × Metric)} (hasc : Ascending keyLess held)
    {e : BitVec 32 × Metric} (he : e.1 ∈ held.map Prod.fst) :
    (appendMetric held e).map Prod.fst = held.map Prod.fst := by
  unfold appendMetric
  split
  · exact keys_access_of_mem strictOrder_keyLess hasc he
  · exact keys_access_of_mem strictOrder_keyLess hasc he

theorem ascending_appendMetric {held : List (BitVec 32 × Metric)} (hasc : Ascending keyLess held)
    (e : BitVec 32 × Metric) : Ascending keyLess (appendMetric held e) := by
  unfold appendMetric
  split
  · exact ascending_access strictOrder_keyLess hasc
  · exact ascending_access strictOrder_keyLess hasc

theorem keys_foldl_appendMetric {others held : List (BitVec 32 × Metric)}
    (hasc : Ascending keyLess held) (h : ∀ e ∈ others, e.1 ∈ held.map Prod.fst) :
    (others.foldl appendMetric held).map Prod.fst = held.map Prod.fst := by
  induction others generalizing held with
  | nil => rfl
  | cons e others ih =>
    have hkeys := keys_appendMetric hasc (h e List.mem_cons_self)
    rw [List.foldl_cons, ih (ascending_appendMetric hasc e), hkeys]
    intro e' he'
    rw [hkeys]
    exact h e' (List.mem_cons_of_mem e he')

theorem Accounted.append {s other : Statistics} {logs : List LogStream}
    {metrics : List MetricStream} (h : Accounted s logs metrics) (hcovers : s.Covers other) :
    Accounted (s.append other) logs metrics := by
  have happend : s.append other =
      { s with metrics := other.metrics.foldl appendMetric s.metrics } := by
    rw [Statistics.append, hcovers.1, List.append_nil]
  rw [happend]
  exact h.of_keys (keys_foldl_appendMetric h.ascending hcovers.2)

end Statistics

namespace StatisticsStore

def logsOf (w : StatisticsStore) (number : ℕ) : List LogStream :=
  w.logStreams.filter fun l => l.statistics = number

def metricsOf (w : StatisticsStore) (number : ℕ) : List MetricStream :=
  w.metricStreams.filter fun m => m.statistics = number

structure Inv (w : StatisticsStore) : Prop where
  accounted : ∀ number, (w.heap number).Accounted (w.logsOf number) (w.metricsOf number)
  log : ∀ l ∈ w.logStreams, l.statistics ≤ w.current
  metric : ∀ m ∈ w.metricStreams, m.statistics ≤ w.current

section Close
variable {σ : Type} (number : σ → ℕ) {streams : List σ} {place : ℕ} {x : σ}

theorem filter_open (streams : List σ) (x : σ) :
    (streams ++ [x]).filter (fun y => number y = number x) =
      (streams.filter fun y => number y = number x) ++ [x] := by
  simp

theorem filter_open_of_ne (streams : List σ) {x : σ} {k : ℕ} (hne : k ≠ number x) :
    (streams ++ [x]).filter (fun y => number y = k) = streams.filter fun y => number y = k := by
  simp [hne.symm]

theorem perm_close (hx : streams[place]? = some x) : (x :: streams.eraseIdx place).Perm streams := by
  obtain ⟨hlt, rfl⟩ := List.getElem?_eq_some_iff.mp hx
  exact List.getElem_cons_eraseIdx_perm hlt

theorem filter_close (hx : streams[place]? = some x) :
    (streams.filter fun y => number y = number x).Perm
      (x :: (streams.eraseIdx place).filter fun y => number y = number x) := by
  have hperm := (perm_close hx).symm.filter fun y => decide (number y = number x)
  rwa [List.filter_cons_of_pos (by simp)] at hperm

theorem filter_close_of_ne (hx : streams[place]? = some x) {k : ℕ} (hne : k ≠ number x) :
    (streams.filter fun y => number y = k).Perm
      ((streams.eraseIdx place).filter fun y => number y = k) := by
  have hperm := (perm_close hx).symm.filter fun y => decide (number y = k)
  rwa [List.filter_cons_of_neg (by simpa using hne.symm)] at hperm

end Close

variable {w : StatisticsStore}

theorem inv_init (limit : ℕ) : Inv { limit := limit } where
  accounted := fun _ => Statistics.Accounted.nil
  log := fun _ hl => nomatch hl
  metric := fun _ hm => nomatch hm

theorem Inv.change (h : Inv w) {number : ℕ} {s : Statistics}
    {logs : List LogStream} {metrics : List MetricStream}
    (hs : s.Accounted (logs.filter fun l => l.statistics = number)
      (metrics.filter fun m => m.statistics = number))
    (hlogs : ∀ k ≠ number, (w.logsOf k).Perm (logs.filter fun l => l.statistics = k))
    (hmetrics : ∀ k ≠ number, (w.metricsOf k).Perm (metrics.filter fun m => m.statistics = k))
    (hlog : ∀ l ∈ logs, l.statistics ≤ w.current)
    (hmetric : ∀ m ∈ metrics, m.statistics ≤ w.current) :
    Inv { w.set number s with logStreams := logs, metricStreams := metrics } where
  accounted := by
    intro k
    show (Function.update w.heap number s k).Accounted _ _
    by_cases hk : k = number
    · subst hk
      rw [Function.update_self]
      exact hs
    · rw [Function.update_of_ne hk]
      exact (h.accounted k).perm (hlogs k hk) (hmetrics k hk)
  log := hlog
  metric := hmetric

theorem inv_get (h : Inv w) : Inv w.get := by
  unfold get
  split
  · refine ⟨?_, fun l hl => Nat.le_succ_of_le (h.log l hl),
      fun m hm => Nat.le_succ_of_le (h.metric m hm)⟩
    intro k
    show (Function.update w.heap (w.current + 1) {} k).Accounted (w.logsOf k) (w.metricsOf k)
    by_cases hk : k = w.current + 1
    · subst hk
      have hlogs : w.logsOf (w.current + 1) = [] := by
        apply List.filter_eq_nil_iff.mpr
        intro l hl
        have hle := h.log l hl
        simp only [decide_eq_true_eq]
        omega
      have hmetrics : w.metricsOf (w.current + 1) = [] := by
        apply List.filter_eq_nil_iff.mpr
        intro m hm
        have hle := h.metric m hm
        simp only [decide_eq_true_eq]
        omega
      rw [Function.update_self, hlogs, hmetrics]
      exact Statistics.Accounted.nil
    · rw [Function.update_of_ne hk]
      exact h.accounted k
  · exact h

@[simp] theorem logStreams_get (w : StatisticsStore) : w.get.logStreams = w.logStreams := by
  unfold get
  split <;> rfl

@[simp] theorem metricStreams_get (w : StatisticsStore) : w.get.metricStreams = w.metricStreams := by
  unfold get
  split <;> rfl

/-- No other log stream of the statistics is open when one is opened, no metric stream of the
statistics is open when a metric is made, and nothing new is appended. -/
def Apart (w : StatisticsStore) : StatisticsEvent → Prop
  | .logStream => ∀ l ∈ w.logStreams, l.statistics ≠ w.get.current
  | .metricStream index =>
    packedIndex index ∈ w.get.currentStatistics.metrics.map Prod.fst ∨
      ∀ m ∈ w.metricStreams, m.statistics ≠ w.get.current
  | .append number other => (w.heap number).Covers other
  | .merge newer => w.get.currentStatistics.Covers newer
  | _ => True

instance (w : StatisticsStore) : ∀ e, Decidable (w.Apart e)
  | .logStream => inferInstanceAs (Decidable (∀ l ∈ w.logStreams, l.statistics ≠ w.get.current))
  | .metricStream index =>
    inferInstanceAs (Decidable (packedIndex index ∈ w.get.currentStatistics.metrics.map Prod.fst ∨
      ∀ m ∈ w.metricStreams, m.statistics ≠ w.get.current))
  | .append number other => inferInstanceAs (Decidable ((w.heap number).Covers other))
  | .merge newer => inferInstanceAs (Decidable (w.get.currentStatistics.Covers newer))
  | .setSizeLimit _ | .write _ _ | .closeLog _ | .callMetric _ _ | .closeMetric _ =>
    inferInstanceAs (Decidable True)

theorem Inv.set (h : Inv w) {number : ℕ} {s : Statistics}
    (hs : s.Accounted (w.logsOf number) (w.metricsOf number)) : Inv (w.set number s) :=
  h.change hs (fun _ _ => .refl _) (fun _ _ => .refl _) h.log h.metric

theorem inv_logStream (h : Inv w) (hapart : ∀ l ∈ w.logStreams, l.statistics ≠ w.current) :
    Inv { w.set w.current (w.currentStatistics.openLog w.current).1 with
      logStreams := w.logStreams ++ [(w.currentStatistics.openLog w.current).2] } := by
  have hnone : w.logsOf w.current = [] := by
    apply List.filter_eq_nil_iff.mpr
    intro l hl
    simpa using hapart l hl
  have hs := h.accounted w.current
  rw [hnone] at hs
  have hnew : (w.logStreams ++ [(w.currentStatistics.openLog w.current).2]).filter
      (fun l => l.statistics = w.current) =
        w.logsOf w.current ++ [(w.currentStatistics.openLog w.current).2] :=
    filter_open LogStream.statistics w.logStreams (w.currentStatistics.openLog w.current).2
  apply h.change
  · rw [hnew, hnone]
    exact hs.openLog w.current
  · intro k hk
    rw [filter_open_of_ne LogStream.statistics _ hk]
    exact .refl _
  · exact fun k _ => .refl _
  · intro l hl
    obtain hl | hl := List.mem_append.mp hl
    · exact h.log l hl
    · obtain rfl := List.mem_singleton.mp hl
      exact Nat.le_refl _
  · exact h.metric

theorem inv_metricStream (h : Inv w) {index : BitVec 32}
    (hapart : index ∈ w.currentStatistics.metrics.map Prod.fst ∨
      ∀ m ∈ w.metricStreams, m.statistics ≠ w.current) :
    Inv { w.set w.current (w.currentStatistics.openMetric w.current index).1 with
      metricStreams := w.metricStreams ++
        [(w.currentStatistics.openMetric w.current index).2] } := by
  have hmade : index ∈ w.currentStatistics.metrics.map Prod.fst ∨ w.metricsOf w.current = [] := by
    refine hapart.imp_right fun hnone => List.filter_eq_nil_iff.mpr ?_
    intro m hm
    simpa using hnone m hm
  have hnew : (w.metricStreams ++ [(w.currentStatistics.openMetric w.current index).2]).filter
      (fun m => m.statistics = w.current) =
        w.metricsOf w.current ++ [(w.currentStatistics.openMetric w.current index).2] :=
    filter_open MetricStream.statistics w.metricStreams
      (w.currentStatistics.openMetric w.current index).2
  apply h.change
  · rw [hnew]
    exact ((h.accounted w.current).openMetric w.current hmade).perm (.refl _)
      (List.perm_append_singleton _ _).symm
  · exact fun k _ => .refl _
  · intro k hk
    rw [filter_open_of_ne MetricStream.statistics _ hk]
    exact .refl _
  · exact h.log
  · intro m hm
    obtain hm | hm := List.mem_append.mp hm
    · exact h.metric m hm
    · obtain rfl := List.mem_singleton.mp hm
      exact Nat.le_refl _

theorem step_inv {w' : StatisticsStore} {e : StatisticsEvent} (h : Inv w) (hapart : w.Apart e)
    (hstep : w.step e = some w') : Inv w' := by
  cases e with
  | setSizeLimit limit =>
    obtain rfl := Option.some.inj hstep
    exact ⟨h.accounted, h.log, h.metric⟩
  | logStream =>
    obtain rfl := Option.some.inj hstep
    refine inv_logStream (inv_get h) ?_
    rw [logStreams_get]
    exact hapart
  | write place bytes =>
    obtain ⟨l, hl, rfl⟩ := Option.map_eq_some_iff.mp hstep
    have hmem : l ∈ w.logsOf l.statistics :=
      List.mem_filter.mpr ⟨List.mem_of_getElem? hl, decide_eq_true rfl⟩
    exact h.set ((h.accounted l.statistics).write hmem bytes)
  | closeLog place =>
    obtain ⟨l, hl, rfl⟩ := Option.map_eq_some_iff.mp hstep
    apply h.change
    · exact ((h.accounted l.statistics).perm (filter_close LogStream.statistics hl) (.refl _)).closeLog
    · exact fun k hk => filter_close_of_ne LogStream.statistics hl hk
    · exact fun k hk => .refl _
    · exact fun l' hl' => h.log l' (List.mem_of_mem_eraseIdx hl')
    · exact h.metric
  | metricStream index =>
    obtain rfl := Option.some.inj hstep
    refine inv_metricStream (inv_get h) ?_
    rw [metricStreams_get]
    exact hapart
  | callMetric place call =>
    obtain ⟨m, hm, rfl⟩ := Option.map_eq_some_iff.mp hstep
    have hmem : m ∈ w.metricsOf m.statistics :=
      List.mem_filter.mpr ⟨List.mem_of_getElem? hm, decide_eq_true rfl⟩
    have hindex := ((h.accounted m.statistics).metric m hmem).2
    exact h.set ((h.accounted m.statistics).callMetric hindex call)
  | closeMetric place =>
    obtain ⟨m, hm, rfl⟩ := Option.map_eq_some_iff.mp hstep
    apply h.change
    · exact ((h.accounted m.statistics).perm (.refl _)
        (filter_close MetricStream.statistics hm)).closeMetric
    · exact fun k hk => .refl _
    · exact fun k hk => filter_close_of_ne MetricStream.statistics hm hk
    · exact h.log
    · exact fun m' hm' => h.metric m' (List.mem_of_mem_eraseIdx hm')
  | append number other =>
    simp only [step] at hstep
    split at hstep
    · obtain rfl := Option.some.inj hstep
      apply h.set
      exact (h.accounted number).append hapart
    · cases hstep
  | merge newer =>
    obtain rfl := Option.some.inj hstep
    apply (inv_get h).set
    exact ((inv_get h).accounted w.get.current).append hapart

/-- Once all streams are closed, the size is that of what the statistics keep. -/
theorem size_eq_contentSize (limit : ℕ) (events : List StatisticsEvent) {w : StatisticsStore}
    (hapart : Along step Apart { limit := limit } events)
    (hrun : run step { limit := limit } events = some w) (hlogs : w.logStreams = [])
    (hmetrics : w.metricStreams = []) :
    w.currentStatistics.size = w.currentStatistics.contentSize := by
  have hinv : Inv w := run_preserves (fun _ _ _ => step_inv) (inv_init limit) hapart hrun
  have hsize := (hinv.accounted w.current).size
  rw [logsOf, metricsOf, hlogs, hmetrics] at hsize
  exact hsize

/-- The first entry is over the limit, so that the second one goes to new statistics. -/
theorem size_eq_contentSize_of_entries :
    (((run step { limit := 2 } [.logStream, .metricStream 7, .write 0 [1, 2, 3], .closeLog 0,
      .callMetric 0 (.addDuration 5), .logStream, .write 0 [4], .closeMetric 0, .closeLog 0]).get
        (by decide)).current = 1) ∧
    (((run step { limit := 2 } [.logStream, .metricStream 7, .write 0 [1, 2, 3], .closeLog 0,
      .callMetric 0 (.addDuration 5), .logStream, .write 0 [4], .closeMetric 0, .closeLog 0]).get
        (by decide)).currentStatistics).size = 1 :=
  ⟨by decide, size_eq_contentSize 2 _ (by decide) (Option.some_get _).symm (by decide) (by decide)⟩

/-- One log entry of one byte, and while it is open another one of two bytes: six bytes are counted,
and three are kept. -/
theorem size_ne_contentSize_of_nested :
    ¬∀ (limit : ℕ) (events : List StatisticsEvent) (w : StatisticsStore),
      run step { limit := limit } events = some w → w.logStreams = [] → w.metricStreams = [] →
      w.currentStatistics.size = w.currentStatistics.contentSize := by
  intro hall
  have hsize := hall 10240 [.logStream, .write 0 [1], .logStream, .write 1 [2, 3], .closeLog 1,
    .closeLog 0] _ rfl rfl rfl
  revert hsize
  decide

end StatisticsStore
end AetherClient
