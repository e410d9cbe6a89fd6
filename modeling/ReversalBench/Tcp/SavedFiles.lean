import ReversalBench.Lib.Csv
import ReversalBench.Tcp.Counters
import ReversalBench.Tcp.ProcStat

/-! The files that the C++ TCP client saves (`metrics_aggregator.cpp`, `save_to_csv`), as text.
Read as tables they give back what was recorded in the run, the rates up to their last
decimal. A file that was cut off gives back the rows it has in full. Rates are exact rational
numbers up to the text. -/

namespace ReversalBench.Tcp

open Csv (Plain Readable plain_numeral)
open Decimal (Numeral fixed readFixed readInt readNat)

namespace MetricsAggregator

/-- `m_protocol_name`, as `main` gives it. -/
def protocolName : List Char := "CPP_TCP".toList

/-- The cells of the overall row. -/
def overallCells (row : OverallRow) (r : ResourceMonitor) : List (List Char) :=
  [protocolName, fixed 6 row.totalTimeS, Nat.toDigits 10 row.totalBytesProcessed,
    fixed 6 row.throughputMbps, Nat.toDigits 10 row.totalChunks, Nat.toDigits 10 row.verifiedChunks,
    fixed 2 r.mAvgCpuUsagePercent, Decimal.int r.mPeakMemoryKb]

/-- What is written to the file of the overall metrics. -/
def overallText (m : MetricsAggregator) (r : ResourceMonitor) : List Char :=
  ("Protocol,TotalTime_s,TotalBytesProcessed,Throughput_Mbps,TotalChunks," ++
    "VerifiedChunks,ClientAvgCPU_percent,ClientPeakMemory_KB\n").toList ++
  m.overallRow.toList.flatMap fun row => Csv.line (overallCells row r)

/-- The cells of a row of the round-trip times. -/
def rttCells (info : ChunkRTTInfo) : List (List Char) :=
  [protocolName, Nat.toDigits 10 info.chunkIndex, Decimal.int info.rtt,
    Nat.toDigits 10 info.chunkSizeBytes, if info.verified then "true".toList else "false".toList]

/-- What is written to the file of the round-trip times. -/
def rttText (m : MetricsAggregator) : List Char :=
  "Protocol,ChunkIndex,RTT_us,ChunkSizeBytes,Verified\n".toList ++
    m.chunkRttRows.flatMap fun info => Csv.line (rttCells info)

/-- The texts of the two files, of those that could be opened. -/
def saveToCsv (m : MetricsAggregator) (r : ResourceMonitor) (overallOpens rttOpens : Bool) :
    Option (List Char) × Option (List Char) :=
  if !overallOpens then (none, none)
  else (some (m.overallText r), if !rttOpens then none else some m.rttText)

/-! ### Reading the files -/

/-- The figures of an overall row, with the use of the CPU and the peak memory. -/
def readOverallRow : List (List Char) → Option (OverallRow × ℚ × ℤ)
  | [_, totalTime, bytes, throughput, chunks, verified, cpu, memory] => do
    let row : OverallRow :=
      ⟨← readFixed totalTime, ← readNat bytes, ← readFixed throughput, ← readNat chunks,
        ← readNat verified⟩
    return (row, ← readFixed cpu, ← readInt memory)
  | _ => none

def readRttRow : List (List Char) → Option ChunkRTTInfo
  | [_, index, rtt, size, verified] => do
    return ⟨← readNat index, ← readInt rtt, ← readNat size, verified == "true".toList⟩
  | _ => none

/-- The rows behind the header. -/
def readOverall (text : List Char) : List (Option (OverallRow × ℚ × ℤ)) :=
  Csv.readRecords readOverallRow text

def readRtt (text : List Char) : List (Option ChunkRTTInfo) := Csv.readRecords readRttRow text

variable {m : MetricsAggregator}

theorem plain_protocolName : Plain protocolName := ⟨by decide +kernel, by decide +kernel⟩

theorem plain_verified (verified : Bool) :
    Plain (if verified then "true".toList else "false".toList) := by
  cases verified with
  | true => exact ⟨by decide +kernel, by decide +kernel⟩
  | false => exact ⟨by decide +kernel, by decide +kernel⟩

def rttHeader : List (List Char) :=
  ["Protocol".toList, "ChunkIndex".toList, "RTT_us".toList, "ChunkSizeBytes".toList,
    "Verified".toList]

theorem readable_rttCells (info : ChunkRTTInfo) : Readable (rttCells info) := by
  refine ⟨List.cons_ne_nil _ _, ?_⟩
  simp only [rttCells, List.forall_mem_cons]
  exact ⟨plain_protocolName, plain_numeral (Decimal.numeral_digits _),
    plain_numeral (Decimal.numeral_int _), plain_numeral (Decimal.numeral_digits _),
    plain_verified _, fun _ h => nomatch h⟩

theorem readRttRow_rttCells (info : ChunkRTTInfo) : readRttRow (rttCells info) = some info := by
  have hverified : ((if info.verified then "true".toList else "false".toList) ==
      "true".toList) = info.verified := by
    cases info.verified with
    | true => decide +kernel
    | false => decide +kernel
  simp only [readRttRow, rttCells, Decimal.readNat_digits, Decimal.readInt_int, hverified,
    Option.pure_def, Option.bind_eq_bind, Option.bind_some]

theorem rttText_eq (m : MetricsAggregator) :
    m.rttText = Csv.table (rttHeader :: m.mChunkRttData.map rttCells) := by
  have hheader : "Protocol,ChunkIndex,RTT_us,ChunkSizeBytes,Verified\n".toList =
      Csv.line rttHeader := by decide +kernel
  unfold rttText chunkRttRows Csv.table
  rw [hheader, List.flatMap_cons, List.flatMap_map]

theorem readable_rttRows (m : MetricsAggregator) :
    ∀ row ∈ rttHeader :: m.mChunkRttData.map rttCells, Readable row := by
  refine List.forall_mem_cons.mpr ⟨⟨List.cons_ne_nil _ _, fun cell hcell => ?_⟩, ?_⟩
  · have hplain : ∀ cell ∈ rttHeader, ',' ∉ cell ∧ '\n' ∉ cell := by decide +kernel
    exact ⟨(hplain cell hcell).1, (hplain cell hcell).2⟩
  · intro row hrow
    obtain ⟨info, -, rfl⟩ := List.mem_map.mp hrow
    exact readable_rttCells info

theorem readRttRow_map (m : MetricsAggregator) :
    (m.mChunkRttData.map rttCells).map readRttRow = m.mChunkRttData.map some := by
  rw [List.map_map]
  exact List.map_congr_left fun info _ => readRttRow_rttCells info

theorem readRtt_rttText (m : MetricsAggregator) : readRtt m.rttText = m.mChunkRttData.map some := by
  rw [readRtt, rttText_eq, Csv.readRecords_table (readable_rttRows m), readRttRow_map]

/-- A file that was cut off. -/
theorem readRtt_prefix {text : List Char} (h : text <+: m.rttText) :
    readRtt text <+: m.mChunkRttData.map some := by
  rw [readRtt, ← readRttRow_map]
  exact Csv.readRecords_of_prefix (readable_rttRows m) (rttText_eq m ▸ h)

/-! ### The overall file -/

def overallHeader : List (List Char) :=
  ["Protocol".toList, "TotalTime_s".toList, "TotalBytesProcessed".toList,
    "Throughput_Mbps".toList, "TotalChunks".toList, "VerifiedChunks".toList,
    "ClientAvgCPU_percent".toList, "ClientPeakMemory_KB".toList]

theorem overallText_eq (m : MetricsAggregator) (r : ResourceMonitor) :
    m.overallText r =
      Csv.table (overallHeader :: m.overallRow.toList.map fun row => overallCells row r) := by
  have hheader : ("Protocol,TotalTime_s,TotalBytesProcessed,Throughput_Mbps,TotalChunks," ++
      "VerifiedChunks,ClientAvgCPU_percent,ClientPeakMemory_KB\n").toList =
      Csv.line overallHeader := by decide +kernel
  unfold overallText Csv.table
  rw [hheader, List.flatMap_cons, List.flatMap_map]

theorem readable_overallRows (m : MetricsAggregator) (r : ResourceMonitor) :
    ∀ row ∈ overallHeader :: m.overallRow.toList.map fun row => overallCells row r,
      Readable row := by
  refine List.forall_mem_cons.mpr ⟨⟨List.cons_ne_nil _ _, fun cell hcell => ?_⟩, ?_⟩
  · have hplain : ∀ cell ∈ overallHeader, ',' ∉ cell ∧ '\n' ∉ cell := by decide +kernel
    exact ⟨(hplain cell hcell).1, (hplain cell hcell).2⟩
  · intro row hrow
    obtain ⟨info, -, rfl⟩ := List.mem_map.mp hrow
    refine ⟨List.cons_ne_nil _ _, ?_⟩
    simp only [overallCells, List.forall_mem_cons]
    exact ⟨plain_protocolName, plain_numeral (Decimal.numeral_fixed _ _),
      plain_numeral (Decimal.numeral_digits _), plain_numeral (Decimal.numeral_fixed _ _),
      plain_numeral (Decimal.numeral_digits _), plain_numeral (Decimal.numeral_digits _),
      plain_numeral (Decimal.numeral_fixed _ _), plain_numeral (Decimal.numeral_int _),
      fun _ h => nomatch h⟩

/-- What is read is the overall row: the time and the counts as they are, the rates to within
half a unit of their last decimal. -/
structure ReadsOverall (row : OverallRow) (r : ResourceMonitor) (text : List Char) : Prop where
  read : ∃ throughput cpu : ℚ, readOverall text =
      [some ({ row with throughputMbps := throughput }, cpu, r.mPeakMemoryKb)] ∧
    |throughput - row.throughputMbps| ≤ 1 / 2 / 10 ^ 6 ∧
    |cpu - r.mAvgCpuUsagePercent| ≤ 1 / 2 / 10 ^ 2

/-- The time is in whole milliseconds. -/
theorem exists_totalTimeS {row : OverallRow} (h : m.overallRow = some row) :
    ∃ z : ℤ, row.totalTimeS * 10 ^ 6 = z := by
  unfold overallRow at h
  split at h
  · cases h
    refine ⟨(m.mEndTime - m.mStartTime).tdiv 1000000 * 1000, ?_⟩
    push_cast
    ring
  · cases h

theorem readsOverall {row : OverallRow} (h : m.overallRow = some row) (r : ResourceMonitor) :
    ReadsOverall row r (m.overallText r) := by
  obtain ⟨z, hz⟩ := exists_totalTimeS h
  refine ⟨_, _, ?_, Decimal.abs_readFixed_sub_le 6 _, Decimal.abs_readFixed_sub_le 2 _⟩
  rw [readOverall, overallText_eq, Csv.readRecords_table (readable_overallRows m r), h]
  simp only [Option.toList_some, List.map_cons, List.map_nil, overallCells,
    readOverallRow, Decimal.readFixed_exact (by decide : 0 < 6) hz, Decimal.readNat_digits,
    Decimal.readFixed_fixed (by decide : 0 < 6), Decimal.readFixed_fixed (by decide : 0 < 2),
    Decimal.readInt_int, Option.pure_def, Option.bind_eq_bind, Option.bind_some]

/-- Where the timer has not run to its end, the file holds its header only. -/
theorem readOverall_none (h : m.overallRow = none) (r : ResourceMonitor) :
    readOverall (m.overallText r) = [] := by
  rw [readOverall, overallText_eq, Csv.readRecords_table (readable_overallRows m r), h]
  rfl

theorem mem_saveToCsv {r : ResourceMonitor} {overallOpens rttOpens : Bool} {text : List Char} :
    (text ∈ (m.saveToCsv r overallOpens rttOpens).1 → text = m.overallText r) ∧
      (text ∈ (m.saveToCsv r overallOpens rttOpens).2 → text = m.rttText) := by
  cases overallOpens <;> cases rttOpens <;> simp [saveToCsv, eq_comm]

end MetricsAggregator

/-! ### After a run -/

namespace Program

open Machine (run)
open MetricsAggregator (ReadsOverall readOverall readRtt throughputMbps)

variable {host : ByteOrder} {chunkSize : ChunkSize} {disk : Disk} {t : Program}
  {prepared : Bool} {totalFileSize : ℕ} {clock : Clock} {headers : HeaderBuffer × HeaderBuffer}
  {es : List Event}

/-- The records are those of the first chunks of the file, one for each. -/
structure Describes (disk : Disk) (chunkSize : ChunkSize) (infos : List ChunkRTTInfo) : Prop where
  indices : infos.map ChunkRTTInfo.chunkIndex = List.range' 1 infos.length
  sizes : infos.map ChunkRTTInfo.chunkSizeBytes = deliveredSizes disk chunkSize infos.length

/-- After any run the files that could be opened give back the chunks that were measured and the
overall figures of the run, if there are any, and the front part of a file the first of these
chunks. -/
theorem tcpFiles_readBack (ht : run (step host chunkSize) es
      (main chunkSize prepared totalFileSize disk clock headers) = some t) (r : ResourceMonitor)
    (overallOpens rttOpens : Bool) :
    let m := t.client.mMetrics
    let saved := m.saveToCsv r overallOpens rttOpens
    Describes disk chunkSize m.mChunkRttData ∧
    (∀ text ∈ saved.2, readRtt text = m.mChunkRttData.map some ∧
      ∀ front, front <+: text → readRtt front <+: m.mChunkRttData.map some) ∧
    ∀ text ∈ saved.1,
      (m.overallRow = none → readOverall text = []) ∧
      ∀ row, m.overallRow = some row → ReadsOverall row r text ∧
        row.totalChunks = m.mChunkRttData.length ∧ row.verifiedChunks = t.client.mChunksSent ∧
        row.totalBytesProcessed = (m.mChunkRttData.map ChunkRTTInfo.chunkSizeBytes).sum := by
  intro m saved
  classical
  have hinStep := InStep.of_stage (stage_run (stage_main prepared totalFileSize clock headers) ht)
  refine ⟨⟨?_, ?_⟩, fun text htext => ?_, fun text htext => ⟨fun hnone => ?_, fun row hrow => ?_⟩⟩
  · rw [hinStep.indices, hinStep.recorded]
  · rw [hinStep.sizes, hinStep.recorded]
  · rw [MetricsAggregator.mem_saveToCsv.2 htext]
    exact ⟨MetricsAggregator.readRtt_rttText _, fun front => MetricsAggregator.readRtt_prefix⟩
  · rw [MetricsAggregator.mem_saveToCsv.1 htext]
    exact MetricsAggregator.readOverall_none hnone r
  · rw [MetricsAggregator.mem_saveToCsv.1 htext]
    refine ⟨MetricsAggregator.readsOverall hrow r, ?_⟩
    unfold MetricsAggregator.overallRow at hrow
    split at hrow
    · cases hrow
      exact ⟨hinStep.recorded, hinStep.verified, hinStep.bytes⟩
    · cases hrow

/-- One reading of the clock a second. The one chunk, which was not verified, is in the file of
the round-trip times, and the overall row counts it. -/
theorem tcpFiles_readBack_refuted :
    ∃ t, run (step .big ⟨1, by decide, by decide⟩) refutedRun
        (main ⟨1, by decide, by decide⟩ true 1 (Disk.ofFile ⟨[1], by decide⟩)
          ⟨fun n => (n + 1) * 10 ^ 9, 0⟩ (⟨[0, 0, 0, 0], rfl⟩, ⟨[0, 0, 0, 0], rfl⟩)) = some t ∧
      readRtt t.client.mMetrics.rttText = [some ⟨1, 1000000, 1, false⟩] ∧
      ∃ row, t.client.mMetrics.overallRow = some row ∧
        ReadsOverall row .new (t.client.mMetrics.overallText .new) ∧
        (row.totalTimeS, row.totalBytesProcessed, row.totalChunks, row.verifiedChunks) =
          (4, 1, 1, 0) := by
  have hrun : (run (step .big ⟨1, by decide, by decide⟩) refutedRun
      (main ⟨1, by decide, by decide⟩ true 1 (Disk.ofFile ⟨[1], by decide⟩)
        ⟨fun n => (n + 1) * 10 ^ 9, 0⟩ (⟨[0, 0, 0, 0], rfl⟩, ⟨[0, 0, 0, 0], rfl⟩))).map
          (fun t => (t.client.mMetrics.mChunkRttData, t.client.mMetrics.overallRow)) =
      some ([⟨1, 1000000, 1, false⟩], some ⟨4, 1, throughputMbps 1 4, 1, 0⟩) := by
    decide +kernel
  obtain ⟨t, ht, hdata⟩ := Option.map_eq_some_iff.mp hrun
  obtain ⟨hinfos, hrow⟩ := Prod.mk.inj hdata
  obtain ⟨-, hrtt, hoverall⟩ := tcpFiles_readBack ht .new true true
  have hread := (hrtt t.client.mMetrics.rttText rfl).1
  rw [hinfos] at hread
  exact ⟨t, ht, hread, _, hrow, ((hoverall _ rfl).2 _ hrow).1, rfl⟩

end Program

end ReversalBench.Tcp
