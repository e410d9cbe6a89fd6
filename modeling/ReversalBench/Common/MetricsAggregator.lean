import Mathlib.Algebra.BigOperators.Group.List.Basic
import Mathlib.Algebra.Order.Group.Nat
import Mathlib.Algebra.Field.Rat
import Mathlib.Data.List.Basic
import Mathlib.Data.Int.Notation

/-! The metrics that the gRPC and Cap'n Proto clients collect (`metrics_aggregator.cpp`). Of
the figures computed from them for the summary the number of chunks and the overhead are
here, which compare the payload with the samples and with the bytes on the wire. -/

namespace ReversalBench.Common

structure MetricsAggregator where
  actualPayloadTransferredBytes : ℕ
  totalOnWireBytes : ℕ
  totalTransactionTimeMs : ℤ
  chunkRttUs : List ℤ
  errors : List String

namespace MetricsAggregator

def new : MetricsAggregator where
  actualPayloadTransferredBytes := 0
  totalOnWireBytes := 0
  totalTransactionTimeMs := 0
  chunkRttUs := []
  errors := []

def recordChunkSent (m : MetricsAggregator) (payloadSize onWireSize : ℕ) : MetricsAggregator :=
  { m with
    actualPayloadTransferredBytes := m.actualPayloadTransferredBytes + payloadSize
    totalOnWireBytes := m.totalOnWireBytes + onWireSize }

def recordChunkRttUs (m : MetricsAggregator) (rttUs : ℤ) : MetricsAggregator :=
  { m with chunkRttUs := m.chunkRttUs ++ [rttUs] }

def setTotalTransactionTimeMs (m : MetricsAggregator) (timeMs : ℤ) : MetricsAggregator :=
  { m with totalTransactionTimeMs := timeMs }

def logError (m : MetricsAggregator) (errorMessage : String) : MetricsAggregator :=
  { m with errors := m.errors ++ [errorMessage] }

def getNumChunks (m : MetricsAggregator) : ℕ := m.chunkRttUs.length

/-- The difference is taken between two `size_t`. -/
def getProtocolOverheadPercentage (m : MetricsAggregator) : ℚ :=
  if m.actualPayloadTransferredBytes = 0 then 0
  else
    let overhead :=
      BitVec.ofNat 64 m.totalOnWireBytes - BitVec.ofNat 64 m.actualPayloadTransferredBytes
    (overhead.toNat : ℚ) / m.actualPayloadTransferredBytes * 100

@[simp] theorem errors_recordChunkSent (m : MetricsAggregator) (payloadSize onWireSize : ℕ) :
    (m.recordChunkSent payloadSize onWireSize).errors = m.errors := rfl

@[simp] theorem errors_recordChunkRttUs (m : MetricsAggregator) (rttUs : ℤ) :
    (m.recordChunkRttUs rttUs).errors = m.errors := rfl

@[simp] theorem errors_setTotalTransactionTimeMs (m : MetricsAggregator) (timeMs : ℤ) :
    (m.setTotalTransactionTimeMs timeMs).errors = m.errors := rfl

@[simp] theorem errors_logError (m : MetricsAggregator) (errorMessage : String) :
    (m.logError errorMessage).errors = m.errors ++ [errorMessage] := rfl

/-! ### What the figures describe -/

/-- The overhead is the difference in per cent of the payload: that the difference is taken
between unsigned numbers does not show, as long as the totals are 64-bit numbers. -/
def OverheadExact (m : MetricsAggregator) : Prop :=
  m.totalOnWireBytes < 2 ^ 64 → m.actualPayloadTransferredBytes ≠ 0 →
    m.getProtocolOverheadPercentage =
      (m.totalOnWireBytes - m.actualPayloadTransferredBytes : ℚ) /
        m.actualPayloadTransferredBytes * 100

/-- The payload and the samples describe the same chunks, whose sizes are `sizes`, these bytes
were on the wire, and the difference is not negative. -/
structure Accounts (sizes : List ℕ) (m : MetricsAggregator) : Prop where
  payload : m.actualPayloadTransferredBytes = sizes.sum
  numChunks : m.getNumChunks = sizes.length
  onWire : m.actualPayloadTransferredBytes ≤ m.totalOnWireBytes
  overhead : m.OverheadExact

variable {sizes : List ℕ} {m : MetricsAggregator}

theorem overheadExact_of_le (hle : m.actualPayloadTransferredBytes ≤ m.totalOnWireBytes) :
    m.OverheadExact := by
  intro hlt hpos
  have hsub : (BitVec.ofNat 64 m.totalOnWireBytes -
      BitVec.ofNat 64 m.actualPayloadTransferredBytes).toNat =
      m.totalOnWireBytes - m.actualPayloadTransferredBytes := by
    simp only [BitVec.toNat_sub, BitVec.toNat_ofNat]
    omega
  rw [getProtocolOverheadPercentage, if_neg hpos]
  dsimp only
  rw [hsub, Nat.cast_sub hle]

theorem accounts_new : Accounts [] new := ⟨rfl, rfl, le_rfl, overheadExact_of_le le_rfl⟩

theorem Accounts.logError (h : Accounts sizes m) (message : String) :
    Accounts sizes (m.logError message) := ⟨h.payload, h.numChunks, h.onWire, h.overhead⟩

theorem Accounts.setTotalTransactionTimeMs (h : Accounts sizes m) (timeMs : ℤ) :
    Accounts sizes (m.setTotalTransactionTimeMs timeMs) :=
  ⟨h.payload, h.numChunks, h.onWire, h.overhead⟩

/-- A chunk is recorded as sent and measured; the order of the two calls does not matter. -/
theorem Accounts.record (h : Accounts sizes m) {payloadSize onWireSize : ℕ}
    (hle : payloadSize ≤ onWireSize) (rttUs : ℤ) :
    Accounts (sizes ++ [payloadSize])
      ((m.recordChunkRttUs rttUs).recordChunkSent payloadSize onWireSize) where
  payload := by
    rw [List.sum_append, List.sum_singleton, ← h.payload]
    rfl
  numChunks := by
    rw [List.length_append, ← h.numChunks]
    exact List.length_append
  onWire := Nat.add_le_add h.onWire hle
  overhead := overheadExact_of_le (Nat.add_le_add h.onWire hle)

end MetricsAggregator

end ReversalBench.Common
