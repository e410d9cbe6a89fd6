import Mathlib.Data.List.Basic
import Mathlib.Algebra.Field.Rat
import Mathlib.Algebra.Order.Ring.Rat

/-! The metrics of the Go benchmark (package `metrics`), as far as the client changes
them. Times are in nanoseconds; the memory statistics are left out. -/

namespace ReversalBench.GoTcp

structure ChunkRTTMetric where
  chunkIndex : ℕ
  rtt : ℤ
  deriving DecidableEq

/-- The times are zero until the timer is started and stopped. -/
structure MetricsAggregator where
  startTime : Option ℤ
  endTime : Option ℤ
  totalBytesProcessed : ℕ
  chunksSent : ℕ
  chunksVerifiedOK : ℕ
  chunksVerifiedFail : ℕ
  chunkRTTs : List ChunkRTTMetric

namespace MetricsAggregator

def new : MetricsAggregator where
  startTime := none
  endTime := none
  totalBytesProcessed := 0
  chunksSent := 0
  chunksVerifiedOK := 0
  chunksVerifiedFail := 0
  chunkRTTs := []

def startTimer (m : MetricsAggregator) (now : ℤ) : MetricsAggregator :=
  { m with startTime := some now }

/-- The timer is stopped only once. -/
def stopTimer (m : MetricsAggregator) (now : ℤ) : MetricsAggregator :=
  if m.endTime.isNone then { m with endTime := some now } else m

@[simp] theorem stopTimer_chunksVerifiedOK (m : MetricsAggregator) (now : ℤ) :
    (m.stopTimer now).chunksVerifiedOK = m.chunksVerifiedOK := by
  unfold stopTimer
  split <;> rfl

@[simp] theorem stopTimer_chunksVerifiedFail (m : MetricsAggregator) (now : ℤ) :
    (m.stopTimer now).chunksVerifiedFail = m.chunksVerifiedFail := by
  unfold stopTimer
  split <;> rfl

@[simp] theorem stopTimer_totalBytesProcessed (m : MetricsAggregator) (now : ℤ) :
    (m.stopTimer now).totalBytesProcessed = m.totalBytesProcessed := by
  unfold stopTimer
  split <;> rfl

def recordChunkProcessed (m : MetricsAggregator) (size : ℕ) : MetricsAggregator :=
  { m with totalBytesProcessed := m.totalBytesProcessed + size }

def recordChunkVerified (m : MetricsAggregator) (success : Bool) : MetricsAggregator :=
  let m := { m with chunksSent := m.chunksSent + 1 }
  if success then { m with chunksVerifiedOK := m.chunksVerifiedOK + 1 }
  else { m with chunksVerifiedFail := m.chunksVerifiedFail + 1 }

def recordChunkRTT (m : MetricsAggregator) (chunkIndex : ℕ) (rtt : ℤ) : MetricsAggregator :=
  { m with chunkRTTs := m.chunkRTTs ++ [⟨chunkIndex, rtt⟩] }

/-- The columns of the overall record, without the name of the language and the memory. -/
structure OverallRecord where
  totalTimeSeconds : ℚ
  totalDataProcessedBytes : ℕ
  throughputMbps : ℚ
  chunksSent : ℕ
  chunksVerifiedOK : ℕ
  chunksVerifiedFail : ℕ
  deriving DecidableEq

/-- `endTime.Sub(startTime)` in nanoseconds. -/
def duration (m : MetricsAggregator) : ℤ := m.endTime.getD 0 - m.startTime.getD 0

/-- `duration.Seconds()`. -/
def seconds (duration : ℤ) : ℚ := duration / 10 ^ 9

/-- The figure in the column `throughput_mbps`. -/
def throughputMBps (totalBytesProcessed : ℕ) (durationSeconds : ℚ) : ℚ :=
  if durationSeconds > 0 then totalBytesProcessed / (1024 * 1024) / durationSeconds else 0

/-- The overall record that `SaveToCSV` writes. -/
def recordOverall (m : MetricsAggregator) : OverallRecord where
  totalTimeSeconds := seconds m.duration
  totalDataProcessedBytes := m.totalBytesProcessed
  throughputMbps := throughputMBps m.totalBytesProcessed (seconds m.duration)
  chunksSent := m.chunksSent
  chunksVerifiedOK := m.chunksVerifiedOK
  chunksVerifiedFail := m.chunksVerifiedFail

/-- The records of the round-trip times that `SaveToCSV` writes: the index of the chunk and the
milliseconds, from the whole microseconds. -/
def recordsRTT (m : MetricsAggregator) : List (ℕ × ℚ) :=
  m.chunkRTTs.map fun rttMetric => (rttMetric.chunkIndex, (rttMetric.rtt.tdiv 1000 : ℤ) / 1000)

end MetricsAggregator

end ReversalBench.GoTcp
