import ReversalBench.Lib.Clock
import Mathlib.Data.List.Basic
import Mathlib.Algebra.GroupWithZero.Nat
import Mathlib.Algebra.Field.Rat
import Mathlib.Algebra.Order.Ring.Rat

/-! The metrics of the C++ TCP benchmark (`metrics_aggregator.cpp`), as far as the
client changes them: the overall timer, the round-trip times and the counts. What
the operating system reports about the process changes none of these. Times are readings of
`std::chrono::steady_clock`. -/

namespace ReversalBench.Tcp

/-- `ChunkRTTInfo`; the round-trip time is in microseconds. -/
structure ChunkRTTInfo where
  chunkIndex : ℕ
  rtt : ℤ
  chunkSizeBytes : ℕ
  verified : Bool
  deriving DecidableEq

structure MetricsAggregator where
  clock : Clock
  mStartTime : ℤ
  mEndTime : ℤ
  mTimerRunning : Bool
  mCurrentChunkRttStartTime : ℤ
  mTotalBytesProcessed : ℕ
  mVerifiedChunksCount : ℕ
  mProcessedChunksCount : ℕ
  mChunkRttData : List ChunkRTTInfo

namespace MetricsAggregator

def new (clock : Clock) : MetricsAggregator where
  clock
  mStartTime := 0
  mEndTime := 0
  mTimerRunning := false
  mCurrentChunkRttStartTime := 0
  mTotalBytesProcessed := 0
  mVerifiedChunksCount := 0
  mProcessedChunksCount := 0
  mChunkRttData := []

def startTimer (m : MetricsAggregator) : MetricsAggregator :=
  if !m.mTimerRunning then
    -- the second reading is that of `start_resource_monitoring`
    { m with mStartTime := m.clock.now, mTimerRunning := true, clock := m.clock.tick.tick }
  else m

def stopTimer (m : MetricsAggregator) : MetricsAggregator :=
  if m.mTimerRunning then
    -- the second reading is that of `stop_resource_monitoring`
    { m with mEndTime := m.clock.now, mTimerRunning := false, clock := m.clock.tick.tick }
  else m

def startChunkRttTimer (m : MetricsAggregator) : MetricsAggregator :=
  { m with mCurrentChunkRttStartTime := m.clock.now, clock := m.clock.tick }

/-- `duration_cast` to microseconds drops the fraction. -/
def stopAndRecordChunkRtt (m : MetricsAggregator) (chunkSizeBytes : ℕ) (verified : Bool) :
    MetricsAggregator :=
  let duration := (m.clock.now - m.mCurrentChunkRttStartTime).tdiv 1000
  { m with
    clock := m.clock.tick
    mChunkRttData := m.mChunkRttData ++
      [⟨m.mProcessedChunksCount + 1, duration, chunkSizeBytes, verified⟩]
    mProcessedChunksCount := m.mProcessedChunksCount + 1
    mTotalBytesProcessed := m.mTotalBytesProcessed + chunkSizeBytes
    mVerifiedChunksCount :=
      if verified then m.mVerifiedChunksCount + 1 else m.mVerifiedChunksCount }

/-- Left over from an older way of counting: it changes nothing. -/
def recordChunkVerified (m : MetricsAggregator) (_success : Bool) : MetricsAggregator := m

/-- The columns of the overall row, without what the operating system reports. -/
structure OverallRow where
  totalTimeS : ℚ
  totalBytesProcessed : ℕ
  throughputMbps : ℚ
  totalChunks : ℕ
  verifiedChunks : ℕ
  deriving DecidableEq

/-- The figure in the column `Throughput_Mbps`. -/
def throughputMbps (totalBytesProcessed : ℕ) (durationSec : ℚ) : ℚ :=
  if durationSec > 0 then totalBytesProcessed * 8 / (durationSec * 1024 * 1024) else 0

/-- The overall row that `save_to_csv` writes once the timer has run; the duration is cast to
milliseconds. -/
def overallRow (m : MetricsAggregator) : Option OverallRow :=
  if !m.mTimerRunning ∧ m.mStartTime ≠ 0 then
    let duration := (m.mEndTime - m.mStartTime).tdiv 1000000
    let durationSec : ℚ := duration / 1000
    some {
      totalTimeS := durationSec
      totalBytesProcessed := m.mTotalBytesProcessed
      throughputMbps := throughputMbps m.mTotalBytesProcessed durationSec
      totalChunks := m.mProcessedChunksCount
      verifiedChunks := m.mVerifiedChunksCount }
  else none

/-- The rows of the round-trip times that `save_to_csv` writes. -/
def chunkRttRows (m : MetricsAggregator) : List ChunkRTTInfo := m.mChunkRttData

/-- The payload bytes of the chunks that were recorded as verified. -/
def verifiedBytes (m : MetricsAggregator) : ℕ :=
  ((m.mChunkRttData.filter ChunkRTTInfo.verified).map ChunkRTTInfo.chunkSizeBytes).sum

@[simp] theorem verifiedBytes_new (clock : Clock) : (new clock).verifiedBytes = 0 := rfl

@[simp] theorem verifiedBytes_startTimer (m : MetricsAggregator) :
    m.startTimer.verifiedBytes = m.verifiedBytes := by
  unfold startTimer; split <;> rfl

@[simp] theorem verifiedBytes_stopTimer (m : MetricsAggregator) :
    m.stopTimer.verifiedBytes = m.verifiedBytes := by
  unfold stopTimer; split <;> rfl

@[simp] theorem verifiedBytes_startChunkRttTimer (m : MetricsAggregator) :
    m.startChunkRttTimer.verifiedBytes = m.verifiedBytes := rfl

@[simp] theorem verifiedBytes_stopAndRecordChunkRtt (m : MetricsAggregator) (n : ℕ) (v : Bool) :
    (m.stopAndRecordChunkRtt n v).verifiedBytes = m.verifiedBytes + if v then n else 0 := by
  cases v <;> simp [stopAndRecordChunkRtt, verifiedBytes]

end MetricsAggregator

end ReversalBench.Tcp
