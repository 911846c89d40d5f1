import AetherClient.StdMap
import Mathlib.Logic.Function.Basic

set_option autoImplicit false

/-!
# Telemetry

Two traps collect metrics: the statistics trap, which also keeps log entries and counts the bytes
of what it keeps, and the stream trap, which prints its metrics at the end. A stream of a trap
refers to one metric or one log entry. The size of the statistics is brought up to date when a
stream is destroyed, from the number of elements at its construction.
-/
namespace AetherClient
open StdMap

structure Metric where
  invocationsCount : BitVec 32 := 0
  maxDuration : BitVec 32 := 0
  sumDuration : BitVec 32 := 0
  minDuration : BitVec 32 := 0
  deriving DecidableEq, Repr

namespace Metric

def larger (x y : BitVec 32) : BitVec 32 := if x < y then y else x

def smaller (x y : BitVec 32) : BitVec 32 := if y < x then y else x

def addCount (count : BitVec 32) (m : Metric) : Metric :=
  { m with invocationsCount := m.invocationsCount + count }

def addDuration (duration : BitVec 32) (m : Metric) : Metric :=
  { m with
    sumDuration := m.sumDuration + duration
    maxDuration := larger m.maxDuration duration
    minDuration := smaller m.minDuration duration }

def append (other m : Metric) : Metric where
  invocationsCount := m.invocationsCount + other.invocationsCount
  maxDuration := larger m.maxDuration other.maxDuration
  sumDuration := m.sumDuration + other.sumDuration
  minDuration := smaller m.minDuration other.minDuration

end Metric

inductive MetricCall where
  | stream
  | addCount (count : BitVec 32)
  | addDuration (duration : BitVec 32)
  deriving DecidableEq, Repr

def MetricCall.apply : MetricCall → Metric → Metric
  | .stream => id
  | .addCount count => Metric.addCount count
  | .addDuration duration => Metric.addDuration duration

structure MetricEvent where
  index : BitVec 64
  call : MetricCall
  deriving DecidableEq, Repr

/-- `metric_stream`, which makes a metric for a new key, and the call. Metrics are not removed, so a
stream refers to the metric that a new one with its index would. -/
def recordMetric {n : ℕ} (fresh : Metric) (key : BitVec 64 → BitVec n)
    (metrics : List (BitVec n × Metric)) (e : MetricEvent) : List (BitVec n × Metric) :=
  access keyLess fresh (key e.index) e.call.apply metrics

namespace IoStreamTrap

def recordAll (events : List MetricEvent) : List (BitVec 64 × Metric) :=
  events.foldl (recordMetric { minDuration := BitVec.allOnes 32 } id) []

end IoStreamTrap

def packedIndex (index : BitVec 64) : BitVec 32 := index.setWidth 32

namespace MetricsStore

/-- `operator[]` of the map initializes a new metric with zeros. -/
def recordAll (events : List MetricEvent) : List (BitVec 32 × Metric) :=
  events.foldl (recordMetric {} packedIndex) []

def metricSize : ℕ := 16

end MetricsStore

structure Statistics where
  logs : List (List UInt8) := []
  metrics : List (BitVec 32 × Metric) := []
  size : ℕ := 0
  deriving DecidableEq, Repr

namespace Statistics

/-- The loop of `UpdateSize` over the last entries. The iterator is not advanced. -/
def lastEntriesSize (s : Statistics) : ℕ → ℕ
  | 0 => 0
  | deltaSize + 1 => s.lastEntriesSize deltaSize + (s.logs.getLast?.getD []).length

def updateLogsSize (s : Statistics) (deltaSize : ℕ) : Statistics :=
  { s with size := s.size + s.lastEntriesSize deltaSize }

def updateMetricsSize (s : Statistics) (deltaSize : ℕ) : Statistics :=
  { s with size := s.size + deltaSize * MetricsStore.metricSize }

def appendMetric (metrics : List (BitVec 32 × Metric)) (e : BitVec 32 × Metric) :
    List (BitVec 32 × Metric) :=
  if (metrics.lookup e.1).isSome then access keyLess e.2 e.1 (Metric.append e.2) metrics
  else access keyLess e.2 e.1 id metrics

def append (s other : Statistics) : Statistics :=
  { s with
    logs := s.logs ++ other.logs
    metrics := other.metrics.foldl appendMetric s.metrics }

end Statistics

/-- A stream with its `ProxyStatistics`. Statistics are numbered in the order in which the store
made them. -/
structure LogStream where
  statistics : ℕ
  size : ℕ
  entry : ℕ
  deriving DecidableEq, Repr

structure MetricStream where
  statistics : ℕ
  size : ℕ
  index : BitVec 32
  deriving DecidableEq, Repr

namespace Statistics

def openLog (s : Statistics) (number : ℕ) : Statistics × LogStream :=
  ({ s with logs := s.logs ++ [[]] },
    { statistics := number, size := s.logs.length, entry := s.logs.length })

def write (s : Statistics) (entry : ℕ) (bytes : List UInt8) : Statistics :=
  { s with logs := s.logs.modify entry (· ++ bytes) }

def closeLog (s : Statistics) (l : LogStream) : Statistics :=
  if s.logs.length ≤ l.size then s else s.updateLogsSize (s.logs.length - l.size)

def callMetric (s : Statistics) (index : BitVec 32) (call : MetricCall) : Statistics :=
  { s with metrics := access keyLess {} index call.apply s.metrics }

def openMetric (s : Statistics) (number : ℕ) (index : BitVec 32) : Statistics × MetricStream :=
  (s.callMetric index .stream, { statistics := number, size := s.metrics.length, index := index })

def closeMetric (s : Statistics) (m : MetricStream) : Statistics :=
  if s.metrics.length ≤ m.size then s else s.updateMetricsSize (s.metrics.length - m.size)

end Statistics

inductive StatisticsEvent where
  | setSizeLimit (limit : ℕ)
  | logStream
  | write (place : ℕ) (bytes : List UInt8)
  | closeLog (place : ℕ)
  | metricStream (index : BitVec 64)
  | callMetric (place : ℕ) (call : MetricCall)
  | closeMetric (place : ℕ)
  | append (number : ℕ) (other : Statistics)
  | merge (newer : Statistics)

/-- The store of the statistics trap, with the statistics that it or an open stream can refer to.
The previous statistics are only kept, and have no name here. -/
structure StatisticsStore where
  limit : ℕ := 10 * 1024
  heap : ℕ → Statistics := fun _ => {}
  current : ℕ := 0
  logStreams : List LogStream := []
  metricStreams : List MetricStream := []

namespace StatisticsStore

def currentStatistics (w : StatisticsStore) : Statistics := w.heap w.current

def set (w : StatisticsStore) (number : ℕ) (s : Statistics) : StatisticsStore :=
  { w with heap := Function.update w.heap number s }

def isCurrentFull (w : StatisticsStore) : Bool := w.limit ≤ w.currentStatistics.size

def rotate (w : StatisticsStore) : StatisticsStore :=
  { w.set (w.current + 1) {} with current := w.current + 1 }

def get (w : StatisticsStore) : StatisticsStore := if w.isCurrentFull then w.rotate else w

def step (w : StatisticsStore) : StatisticsEvent → Option StatisticsStore
  | .setSizeLimit limit => some { w with limit := limit }
  | .logStream =>
    let w := w.get
    match w.currentStatistics.openLog w.current with
    | (s, l) => some { w.set w.current s with logStreams := w.logStreams ++ [l] }
  | .write place bytes =>
    w.logStreams[place]?.map fun l =>
      w.set l.statistics ((w.heap l.statistics).write l.entry bytes)
  | .closeLog place =>
    w.logStreams[place]?.map fun l =>
      { w.set l.statistics ((w.heap l.statistics).closeLog l) with
        logStreams := w.logStreams.eraseIdx place }
  | .metricStream index =>
    let w := w.get
    match w.currentStatistics.openMetric w.current (packedIndex index) with
    | (s, m) => some { w.set w.current s with metricStreams := w.metricStreams ++ [m] }
  | .callMetric place call =>
    w.metricStreams[place]?.map fun m =>
      w.set m.statistics ((w.heap m.statistics).callMetric m.index call)
  | .closeMetric place =>
    w.metricStreams[place]?.map fun m =>
      { w.set m.statistics ((w.heap m.statistics).closeMetric m) with
        metricStreams := w.metricStreams.eraseIdx place }
  | .append number other =>
    if number ≤ w.current then some (w.set number ((w.heap number).append other)) else none
  | .merge newer =>
    let w := w.get
    some (w.set w.current (w.currentStatistics.append newer))

end StatisticsStore
end AetherClient
