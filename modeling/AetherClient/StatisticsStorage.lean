import AetherClient.MstreamRange
import AetherClient.StatisticsSize

set_option autoImplicit false

namespace AetherClient
open LittleEndian Read StdMap Runs

namespace Packed
open Limit

/-- `operator>>` of the range above `range` into a variable with the value `target`. Where the low
part is missing, the high part was stored already. -/
def extractInto (minMax : UInt8) (range target : ℕ) (is : VectorReader) : ℕ × VectorReader :=
  match deserialize minMax range is with
  | (.no, is) => (target, is)
  | (.finished value, is) => (value, is)
  | (.next high, is) =>
    match is.read (2 ^ range) with
    | (none, is) => (high * 2 ^ digits range + target % 2 ^ digits range, is)
    | (some low, is) =>
      ((settle minMax (range + 1)
        ((high * 2 ^ digits range + ofBytes low + upper minMax range) % 2 ^ digits (range + 1))).value,
        is)

theorem extractInto_eq {minMax : UInt8} {range : ℕ} {is is' : VectorReader}
    {res : PackedDeserializeRes} (h : deserialize minMax (range + 1) is = (res, is'))
    (hres : res ≠ .no) (target : ℕ) : extractInto minMax range target is = (res.value, is') := by
  rcases hfirst : deserialize minMax range is with ⟨first, is₁⟩
  rw [deserialize, hfirst] at h
  rw [extractInto, hfirst]
  cases first with
  | no =>
    obtain ⟨rfl, -⟩ := Prod.mk.inj h
    exact absurd rfl hres
  | finished value =>
    obtain ⟨rfl, rfl⟩ := Prod.mk.inj h
    rfl
  | next high =>
    rcases hlow : is₁.read (2 ^ range) with ⟨low, is₂⟩
    simp only [hlow] at h ⊢
    cases low with
    | none =>
      obtain ⟨rfl, -⟩ := Prod.mk.inj h
      exact absurd rfl hres
    | some low =>
      obtain ⟨rfl, rfl⟩ := Prod.mk.inj h
      rfl

theorem extractInto_of_no {minMax : UInt8} (hm : minMax < 255) {range : ℕ} {is is' : VectorReader}
    (h : deserialize minMax (range + 1) is = (.no, is')) (target : ℕ) :
    (extractInto minMax range target is).1 = target ∨
      ∃ high < borrowCount minMax range,
        (extractInto minMax range target is).1 =
          high * 2 ^ digits range + target % 2 ^ digits range := by
  have hwithin := within_deserialize hm range is
  rcases hfirst : deserialize minMax range is with ⟨first, is₁⟩
  rw [hfirst] at hwithin
  rw [deserialize, hfirst] at h
  rw [extractInto, hfirst]
  cases first with
  | no => exact .inl rfl
  | finished value => cases h
  | next high =>
    rcases hlow : is₁.read (2 ^ range) with ⟨low, is₂⟩
    simp only [hlow] at h ⊢
    cases low with
    | none => exact .inr ⟨high, hwithin, rfl⟩
    | some low =>
      obtain ⟨hsettle, -⟩ := Prod.mk.inj h
      rw [settle] at hsettle
      split at hsettle <;> cases hsettle

end Packed

def Gives {α : Type} (decode : VectorReader → α × VectorReader) (P : α → Prop) : Prop :=
  ∀ is, P (decode is).1

theorem Gives.both {α β : Type} {first : VectorReader → α × VectorReader}
    {second : VectorReader → β × VectorReader} {P : α → Prop} {Q : β → Prop}
    (hfirst : Gives first P) (hsecond : Gives second Q) :
    Gives (both first second) fun x => P x.1 ∧ Q x.2 :=
  fun is => ⟨hfirst is, hsecond (first is).2⟩

namespace PackedValue

/-- The first value of a `Packed<std::uint32_t, std::uint8_t, 250>` that is not read back. -/
def limit : ℕ := Limit.upper 250 2

def Storable (value : BitVec 32) : Prop := value.toNat < limit

instance (value : BitVec 32) : Decidable (Storable value) :=
  inferInstanceAs (Decidable (value.toNat < limit))

def encode (value : BitVec 32) : List UInt8 := Packed.serialize 250 2 value.toNat

def decode (target : BitVec 32) (is : VectorReader) : BitVec 32 × VectorReader :=
  match Packed.extractInto 250 1 target.toNat is with
  | (value, is) => (BitVec.ofNat 32 value, is)

theorem reads {value : BitVec 32} (h : Storable value) (target : BitVec 32) :
    Reads (decode target) (encode value) value := by
  intro y offset result
  have hstored : value.toNat < Limit.maxStored 250 2 := Nat.lt_trans h (by decide)
  have hsettle : Packed.settle 250 2 value.toNat = .finished value.toNat := if_neg (Nat.not_le.mpr h)
  have hread := Packed.deserialize_serialize (by decide) hstored y offset result
  rw [hsettle] at hread
  rw [decode, encode, Packed.extractInto_eq hread (by simp)]
  simp only [PackedDeserializeRes.value, BitVec.ofNat_toNat, BitVec.setWidth_eq]

theorem gives_storable : Gives (decode 0) Storable := by
  intro is
  have hvalue : (Packed.extractInto 250 1 0 is).1 < limit := by
    have hwithin := Packed.within_deserialize (show (250 : UInt8) < 255 by decide) 2 is
    generalize hread : Packed.deserialize 250 2 is = read at hwithin
    obtain ⟨res, is'⟩ := read
    cases res with
    | no =>
      obtain hnone | ⟨high, hhigh, hpart⟩ := Packed.extractInto_of_no (by decide) hread 0
      · rw [hnone]
        decide
      · have hlt : high < 16 := hhigh
        have hpart : (Packed.extractInto 250 1 0 is).1 = high * 65536 + 0 := hpart
        have hlimit : limit = 1049835 := by decide
        omega
    | finished value =>
      rw [Packed.extractInto_eq hread (by simp)]
      exact hwithin
    | next value =>
      rw [Packed.extractInto_eq hread (by simp)]
      exact Nat.lt_trans hwithin (by decide)
  exact Nat.lt_of_le_of_lt (BitVec.toNat_ofNat .. ▸ Nat.mod_le _ _) hvalue

end PackedValue

namespace Metric

def encode (m : Metric) : List UInt8 :=
  PackedValue.encode m.invocationsCount ++ (PackedValue.encode m.maxDuration ++
    (PackedValue.encode m.sumDuration ++ PackedValue.encode m.minDuration))

def decodeValues (target : Metric) :
    VectorReader → (BitVec 32 × BitVec 32 × BitVec 32 × BitVec 32) × VectorReader :=
  both (PackedValue.decode target.invocationsCount) (both (PackedValue.decode target.maxDuration)
    (both (PackedValue.decode target.sumDuration) (PackedValue.decode target.minDuration)))

def decode (target : Metric) (is : VectorReader) : Metric × VectorReader :=
  match decodeValues target is with
  | ((count, max, sum, min), is) => (⟨count, max, sum, min⟩, is)

structure Storable (m : Metric) : Prop where
  count : PackedValue.Storable m.invocationsCount
  max : PackedValue.Storable m.maxDuration
  sum : PackedValue.Storable m.sumDuration
  min : PackedValue.Storable m.minDuration

theorem reads {m : Metric} (h : m.Storable) (target : Metric) : Reads (decode target) (encode m) m := by
  intro y offset result
  have hread : Reads (decodeValues target) (encode m) _ :=
    (PackedValue.reads h.count _).both ((PackedValue.reads h.max _).both
      ((PackedValue.reads h.sum _).both (PackedValue.reads h.min _)))
  rw [decode, hread]

theorem gives_storable : Gives (decode {}) Storable := by
  intro is
  have hread := PackedValue.gives_storable
  have hvalues := (hread.both (hread.both (hread.both hread))) is
  rw [decode, decodeValues]
  generalize both (PackedValue.decode 0) _ is = read at hvalues ⊢
  obtain ⟨hcount, hmax, hsum, hmin⟩ := hvalues
  exact ⟨hcount, hmax, hsum, hmin⟩

end Metric

namespace MetricsStore

def encodeEntry (e : BitVec 32 × Metric) : List UInt8 := PackedValue.encode e.1 ++ e.2.encode

def decodeEntry : VectorReader → (BitVec 32 × Metric) × VectorReader :=
  both (PackedValue.decode 0) (Metric.decode {})

def StorableEntry (e : BitVec 32 × Metric) : Prop := PackedValue.Storable e.1 ∧ e.2.Storable

theorem reads_entry {e : BitVec 32 × Metric} (h : StorableEntry e) :
    Reads decodeEntry (encodeEntry e) e :=
  (PackedValue.reads h.1 0).both (Metric.reads h.2 {})

theorem gives_storableEntry : Gives decodeEntry StorableEntry :=
  PackedValue.gives_storable.both Metric.gives_storable

end MetricsStore

namespace Statistics
open MetricsStore

/-- `Serializator`, into a buffer. An entry is written as a string is. -/
def save (s : Statistics) : List UInt8 :=
  toBytes 8 s.size ++ (encodeElements uint32Length (encodeString uint32Length) s.logs ++
    encodeElements uint32Length MetricsStore.encodeEntry s.metrics)

def loadFields :
    VectorReader → (ℕ × List (List UInt8) × List (BitVec 32 × Metric)) × VectorReader :=
  both (fun is => block is 8 0 ofBytes)
    (both (Read.list uint32Length (Read.string uint32Length []) [])
      (Read.map uint32Length MetricsStore.decodeEntry keyLess []))

def load (is : VectorReader) : Statistics × VectorReader :=
  match loadFields is with
  | ((size, logs, metrics), is) => (⟨logs, metrics, size⟩, is)

structure Storable (s : Statistics) : Prop where
  logs : s.logs.length < 2 ^ 32
  entry : ∀ entry ∈ s.logs, entry.length < 2 ^ 32
  metric : ∀ e ∈ s.metrics, StorableEntry e

def Restores (s : Statistics) : Prop :=
  ∀ y offset result, (load ⟨s.save ++ y, offset, result⟩).1.logs = s.logs ∧
    ∀ index, (load ⟨s.save ++ y, offset, result⟩).1.metrics.lookup index = s.metrics.lookup index

theorem length_metrics_le {s : Statistics} (hs : s.Storable) (hasc : Ascending keyLess s.metrics) :
    s.metrics.length ≤ PackedValue.limit := by
  have hnodup : ((s.metrics.map Prod.fst).map BitVec.toNat).Nodup :=
    (nodup_keys strictOrder_keyLess hasc).map fun _ _ => BitVec.eq_of_toNat_eq
  have hsub : (s.metrics.map Prod.fst).map BitVec.toNat ⊆ List.range PackedValue.limit := by
    intro n hn
    obtain ⟨index, hindex, rfl⟩ := List.mem_map.mp hn
    obtain ⟨e, he, rfl⟩ := List.mem_map.mp hindex
    exact List.mem_range.mpr (hs.metric e he).1
  simpa only [List.length_map, List.length_range] using (hnodup.subperm hsub).length_le

theorem load_save {s : Statistics} (hs : s.Storable) (hasc : Ascending keyLess s.metrics)
    (y : List UInt8) (offset : ℕ) (result : ReadResult) :
    (load ⟨s.save ++ y, offset, result⟩).1 = { s with size := s.size % 256 ^ 8 } := by
  have hsize : Reads (fun is => block is 8 0 ofBytes) (toBytes 8 s.size) (s.size % 256 ^ 8) :=
    reads_block (length_toBytes 8 s.size) (ofBytes_toBytes 8 s.size)
  have hlogs : Reads (Read.list uint32Length (Read.string uint32Length []) [])
      (encodeElements uint32Length (encodeString uint32Length) s.logs) s.logs := by
    refine reads_added hs.logs (turns32_of_lt hs.logs) (fun entry hentry => ?_)
      (foldl_append_singleton s.logs [])
    apply Reads.sized (hs.entry entry hentry)
    intro y offset
    exact reads_block rfl rfl y offset .yes
  have hcount : s.metrics.length < 2 ^ 32 :=
    Nat.lt_of_le_of_lt (length_metrics_le hs hasc) (by decide)
  have hmetrics : Reads (Read.map uint32Length MetricsStore.decodeEntry keyLess [])
      (encodeElements uint32Length MetricsStore.encodeEntry s.metrics) s.metrics :=
    reads_added hcount (turns32_of_lt hcount) (fun e he => reads_entry (hs.metric e he))
      (foldl_emplace_perm strictOrder_keyLess.irrefl strictOrder_keyLess.trans hasc (.refl _))
  have hfields : Reads loadFields s.save _ := hsize.both (hlogs.both hmetrics)
  rw [load, hfields]

theorem storable_load (is : VectorReader) : (load is).1.Storable := by
  have hlogs : Gives (Read.list uint32Length (Read.string uint32Length []) [])
      (FitsElements (2 ^ 32) fun entry => entry.length < 2 ^ 32) := by
    apply fits_added (fun is => (fits_string is).1)
    · intro xs x y hy
      simpa [or_comm] using hy
    · intro xs x
      simp
  have hmetrics : Gives (Read.map uint32Length MetricsStore.decodeEntry keyLess [])
      (FitsElements (2 ^ 32) StorableEntry) :=
    fits_added gives_storableEntry (fun _ _ _ => mem_emplace) length_emplace_le
  have hsize : Gives (fun is => block is 8 0 ofBytes) fun _ => True := fun _ => trivial
  have hfields : Gives loadFields _ := hsize.both (hlogs.both hmetrics)
  have hread := hfields is
  rw [load]
  generalize loadFields is = read at hread ⊢
  obtain ⟨-, ⟨hcount, hentry⟩, -, hmetric⟩ := hread
  exact ⟨hcount, hentry, hmetric⟩

theorem restores_iff_storable {s : Statistics} (hasc : Ascending keyLess s.metrics) :
    s.Restores ↔ s.Storable := by
  constructor
  · intro hrestores
    obtain ⟨hlogs, hmetrics⟩ := hrestores [] 0 .no
    have hloaded := storable_load ⟨s.save ++ [], 0, .no⟩
    refine ⟨hlogs ▸ hloaded.logs, hlogs ▸ hloaded.entry, fun e he => ?_⟩
    have hlookup := (hmetrics e.1).trans (lookup_of_mem strictOrder_keyLess hasc he)
    exact hloaded.metric e (mem_of_lookup hlookup)
  · intro hs y offset result
    rw [load_save hs hasc]
    exact ⟨rfl, fun _ => rfl⟩

theorem metrics_closeLog (s : Statistics) (l : LogStream) : (s.closeLog l).metrics = s.metrics := by
  unfold closeLog
  split <;> rfl

theorem metrics_closeMetric (s : Statistics) (m : MetricStream) :
    (s.closeMetric m).metrics = s.metrics := by
  unfold closeMetric
  split <;> rfl

theorem ascending_foldl_appendMetric (others : List (BitVec 32 × Metric))
    {held : List (BitVec 32 × Metric)} (hasc : Ascending keyLess held) :
    Ascending keyLess (others.foldl appendMetric held) := by
  induction others generalizing held with
  | nil => exact hasc
  | cons e others ih => exact ih (ascending_appendMetric hasc e)

end Statistics

namespace StatisticsStore
variable {w : StatisticsStore}

def Ordered (w : StatisticsStore) : Prop := ∀ number, Ascending keyLess (w.heap number).metrics

theorem Ordered.set (h : Ordered w) (number : ℕ) {s : Statistics}
    (hs : Ascending keyLess s.metrics) : Ordered (w.set number s) := by
  intro k
  show Ascending keyLess (Function.update w.heap number s k).metrics
  by_cases hk : k = number
  · subst hk
    rwa [Function.update_self]
  · rw [Function.update_of_ne hk]
    exact h k

theorem Ordered.get (h : Ordered w) : Ordered w.get := by
  unfold StatisticsStore.get
  split
  · exact h.set (w.current + 1) List.Pairwise.nil
  · exact h

theorem step_ordered {w' : StatisticsStore} {e : StatisticsEvent} (h : Ordered w)
    (hstep : w.step e = some w') : Ordered w' := by
  cases e with
  | setSizeLimit limit =>
    obtain rfl := Option.some.inj hstep
    exact h
  | logStream =>
    obtain rfl := Option.some.inj hstep
    exact h.get.set _ (h.get _)
  | metricStream index =>
    obtain rfl := Option.some.inj hstep
    exact h.get.set _ (ascending_access strictOrder_keyLess (h.get _))
  | merge newer =>
    obtain rfl := Option.some.inj hstep
    exact h.get.set _ (Statistics.ascending_foldl_appendMetric _ (h.get _))
  | append number other =>
    simp only [step] at hstep
    split at hstep
    · obtain rfl := Option.some.inj hstep
      exact h.set _ (Statistics.ascending_foldl_appendMetric _ (h _))
    · cases hstep
  | write place bytes =>
    obtain ⟨l, -, rfl⟩ := Option.map_eq_some_iff.mp hstep
    exact h.set _ (h _)
  | closeLog place =>
    obtain ⟨l, -, rfl⟩ := Option.map_eq_some_iff.mp hstep
    refine h.set _ ?_
    rw [Statistics.metrics_closeLog]
    exact h _
  | callMetric place call =>
    obtain ⟨m, -, rfl⟩ := Option.map_eq_some_iff.mp hstep
    exact h.set _ (ascending_access strictOrder_keyLess (h _))
  | closeMetric place =>
    obtain ⟨m, -, rfl⟩ := Option.map_eq_some_iff.mp hstep
    refine h.set _ ?_
    rw [Statistics.metrics_closeMetric]
    exact h _

theorem ordered_init (limit : ℕ) : Ordered { limit := limit } := fun _ => List.Pairwise.nil

theorem ordered_run (limit : ℕ) {events : List StatisticsEvent}
    (hrun : run step { limit := limit } events = some w) : Ordered w :=
  run_preserves (P := fun _ _ => True) (fun _ _ _ h _ => step_ordered h) (ordered_init limit)
    (Along.of_forall fun _ _ _ => trivial) hrun

/-- Statistics that a trap came to have survive if and only if the indexes and the values of their
metrics are below the limit, and sizes below `2 ^ 32`. -/
theorem restores_iff (limit : ℕ) (events : List StatisticsEvent) {w : StatisticsStore}
    (hrun : run step { limit := limit } events = some w) (number : ℕ) :
    (w.heap number).Restores ↔ (w.heap number).Storable :=
  Statistics.restores_iff_storable (ordered_run limit hrun number)

theorem restores_of_small_values :
    ((((run step {} [.logStream, .write 0 [1, 2, 3], .metricStream 7,
      .callMetric 0 (.addDuration 1049834), .callMetric 0 (.addCount 1)]).get (by decide)).heap
        0).Restores) :=
  (restores_iff _ _ (Option.some_get _).symm 0).mpr
    ⟨by decide, by decide, by
      intro e he
      obtain rfl := List.mem_singleton.mp he
      exact ⟨by decide, by decide, by decide, by decide, by decide⟩⟩

/-- One duration of `1049835` nanoseconds. -/
theorem not_restores_of_one_duration :
    ¬∀ (limit : ℕ) (events : List StatisticsEvent) (w : StatisticsStore),
      run step { limit := limit } events = some w → ∀ number, (w.heap number).Restores := by
  intro hall
  have hrestores := hall 10240 [.metricStream 7, .callMetric 0 (.addDuration 1049835),
    .closeMetric 0] _ rfl 0
  have hmetric := (hrestores [] 0 .no).2 7
  revert hmetric
  decide +kernel

end StatisticsStore
end AetherClient
