import ReversalBench.Lib.Csv
import ReversalBench.GoTcp.Client

/-! The files that the Go client saves (package `metrics`, `SaveToCSV`), as text. The `Writer` of
`encoding/csv` quotes only fields that could not be told apart without; none of these is
one. Read as tables the files give back what was recorded, the times of the chunks to the
microsecond. Rates are exact rational numbers up to the text. -/

namespace ReversalBench.GoTcp

open Csv (Plain Readable plain_numeral)
open Decimal (Numeral fixed readFixed readNat)

/-! ### Package `encoding/csv` -/

/-- `unicode.IsSpace`. -/
def isSpaceRune (r : Char) : Bool :=
  (9 ≤ r.toNat && r.toNat ≤ 13) || (0x2000 ≤ r.toNat && r.toNat ≤ 0x200a) ||
    [0x20, 0x85, 0xa0, 0x1680, 0x2028, 0x2029, 0x202f, 0x205f, 0x3000].contains r.toNat

/-- Newlines, carriage returns, quotes, commas and leading white space, and the mark for the end
of the data in some databases. -/
def fieldNeedsQuotes (field : List Char) : Bool :=
  field ≠ [] && (field == ['\x5c', '.'] ||
    field.any (fun c => c == '\n' || c == '\r' || c == '\x22' || c == ',') ||
    field.head?.any isSpaceRune)

/-- Quotes are doubled inside quotes. -/
def quoted (field : List Char) : List Char :=
  '\x22' :: (field.flatMap fun c => if c == '\x22' then ['\x22', '\x22'] else [c]) ++ ['\x22']

/-- `Writer.Write`. -/
def csvWrite (record : List (List Char)) : List Char :=
  Csv.line (record.map fun field => if fieldNeedsQuotes field then quoted field else field)

theorem csvWrite_eq {record : List (List Char)}
    (h : ∀ field ∈ record, fieldNeedsQuotes field = false) : csvWrite record = Csv.line record := by
  have hmap : (record.map fun field => if fieldNeedsQuotes field then quoted field else field) =
      record := by
    refine (List.map_congr_left fun field hfield => ?_).trans (List.map_id record)
    rw [h field hfield]
    rfl
  rw [csvWrite, hmap]

/-- The characters of a number lie between the comma and the colon. -/
theorem toNat_of_numeral {c : Char} (h : c.isDigit = true ∨ c = '-' ∨ c = '.') :
    45 ≤ c.toNat ∧ c.toNat ≤ 57 := by
  rcases h with hdigit | rfl | rfl
  · have hrange : 48 ≤ c.toNat ∧ c.toNat ≤ 57 := by
      simpa [Char.isDigit, UInt32.le_iff_toNat_le] using hdigit
    omega
  · decide
  · decide

theorem isSpaceRune_eq_false {c : Char} (h : 45 ≤ c.toNat ∧ c.toNat ≤ 57) :
    isSpaceRune c = false := by
  simp only [isSpaceRune, List.contains_cons, List.contains_nil, Bool.or_false,
    Bool.or_eq_false_iff, Bool.and_eq_false_iff, decide_eq_false_iff_not, beq_eq_false_iff_ne]
  omega

/-- A number needs no quotes. -/
theorem fieldNeedsQuotes_numeral {t : List Char} (h : Numeral t) : fieldNeedsQuotes t = false := by
  have hrange : ∀ c ∈ t, 45 ≤ c.toNat ∧ c.toNat ≤ 57 := fun c hc => toNat_of_numeral (h c hc)
  have hnot : ∀ d : Char, ¬ (45 ≤ d.toNat ∧ d.toNat ≤ 57) → d ∉ t :=
    fun d hd hmem => hd (hrange d hmem)
  have hmark : t ≠ ['\x5c', '.'] := by
    rintro rfl
    exact hnot '\x5c' (by decide) List.mem_cons_self
  have hany : t.any (fun c => c == '\n' || c == '\r' || c == '\x22' || c == ',') = false := by
    rw [List.any_eq_false]
    intro c hc
    simp only [Bool.or_eq_true, beq_iff_eq]
    rintro (((rfl | rfl) | rfl) | rfl)
    · exact hnot _ (by decide) hc
    · exact hnot _ (by decide) hc
    · exact hnot _ (by decide) hc
    · exact hnot _ (by decide) hc
  have hhead : t.head?.any isSpaceRune = false := by
    cases t with
    | nil => rfl
    | cons c t => exact isSpaceRune_eq_false (hrange c List.mem_cons_self)
  rw [fieldNeedsQuotes, hany, hhead, beq_eq_false_iff_ne.mpr hmark, Bool.or_false, Bool.or_false,
    Bool.and_false]

namespace MetricsAggregator

/-- `language`, as `main` gives it. -/
def language : List Char := "Go".toList

def headersOverall : List (List Char) :=
  ["language".toList, "total_time_seconds".toList, "total_data_processed_bytes".toList,
    "throughput_mbps".toList, "chunks_sent".toList, "chunks_verified_ok".toList,
    "chunks_verified_fail".toList, "client_peak_memory_mb_sys".toList]

def headersRTT : List (List Char) :=
  ["language".toList, "chunk_index".toList, "rtt_milliseconds".toList]

/-- The fields of the overall record; the peak memory is what the runtime reports. -/
def fieldsOverall (row : OverallRecord) (clientPeakMemoryMB : ℕ) : List (List Char) :=
  [language, fixed 3 row.totalTimeSeconds, Nat.toDigits 10 row.totalDataProcessedBytes,
    fixed 3 row.throughputMbps, Nat.toDigits 10 row.chunksSent,
    Nat.toDigits 10 row.chunksVerifiedOK, Nat.toDigits 10 row.chunksVerifiedFail,
    Nat.toDigits 10 clientPeakMemoryMB]

/-- The fields of a record of the round-trip times, the index and the milliseconds. -/
def fieldsRTT (rttMetric : ℕ × ℚ) : List (List Char) :=
  [language, Nat.toDigits 10 rttMetric.1, fixed 3 rttMetric.2]

def overallText (m : MetricsAggregator) (clientPeakMemoryMB : ℕ) : List Char :=
  csvWrite headersOverall ++ csvWrite (fieldsOverall m.recordOverall clientPeakMemoryMB)

def rttText (m : MetricsAggregator) : List Char :=
  csvWrite headersRTT ++ m.recordsRTT.flatMap fun rttMetric => csvWrite (fieldsRTT rttMetric)

/-- The texts of the two files, of those that could be created, and whether `SaveToCSV` reports
no error. -/
def saveToCSV (m : MetricsAggregator) (clientPeakMemoryMB : ℕ) (overallCreates rttCreates : Bool) :
    (Option (List Char) × Option (List Char)) × Bool :=
  if !overallCreates then ((none, none), false)
  else
    let overall := m.overallText clientPeakMemoryMB
    if !rttCreates then ((some overall, none), false) else ((some overall, some m.rttText), true)

/-! ### Reading the files -/

/-- The figures of an overall record, with the peak memory. -/
def readOverallRecord : List (List Char) → Option (OverallRecord × ℕ)
  | [_, totalTime, bytes, throughput, sent, ok, fail, memory] => do
    let row : OverallRecord :=
      ⟨← readFixed totalTime, ← readNat bytes, ← readFixed throughput, ← readNat sent,
        ← readNat ok, ← readNat fail⟩
    return (row, ← readNat memory)
  | _ => none

def readRTTRecord : List (List Char) → Option (ℕ × ℚ)
  | [_, index, rtt] => do return (← readNat index, ← readFixed rtt)
  | _ => none

/-- The records behind the header. -/
def readOverall (text : List Char) : List (Option (OverallRecord × ℕ)) :=
  Csv.readRecords readOverallRecord text

def readRTT (text : List Char) : List (Option (ℕ × ℚ)) := Csv.readRecords readRTTRecord text

variable {m : MetricsAggregator}

/-- The fields of a header, and the name of the language, stand for themselves. -/
theorem headers_plain :
    ∀ field ∈ language :: (headersOverall ++ headersRTT),
      fieldNeedsQuotes field = false ∧ ',' ∉ field ∧ '\n' ∉ field := by decide +kernel

/-- Fields that are numbers, behind the name of the language. -/
theorem numbers_plain {fields : List (List Char)} (h : ∀ field ∈ fields, Numeral field) :
    csvWrite (language :: fields) = Csv.line (language :: fields) ∧
      Readable (language :: fields) := by
  obtain ⟨hquotes, hcomma, hnewline⟩ := headers_plain language List.mem_cons_self
  refine ⟨csvWrite_eq ?_, List.cons_ne_nil _ _, ?_⟩
  · exact List.forall_mem_cons.mpr
      ⟨hquotes, fun field hfield => fieldNeedsQuotes_numeral (h field hfield)⟩
  · exact List.forall_mem_cons.mpr
      ⟨⟨hcomma, hnewline⟩, fun field hfield => plain_numeral (h field hfield)⟩

theorem fieldsRTT_plain (rttMetric : ℕ × ℚ) :
    csvWrite (fieldsRTT rttMetric) = Csv.line (fieldsRTT rttMetric) ∧
      Readable (fieldsRTT rttMetric) := by
  refine numbers_plain ?_
  simp only [List.forall_mem_cons]
  exact ⟨Decimal.numeral_digits _, Decimal.numeral_fixed _ _, fun _ h => nomatch h⟩

theorem fieldsOverall_plain (row : OverallRecord) (memory : ℕ) :
    csvWrite (fieldsOverall row memory) = Csv.line (fieldsOverall row memory) ∧
      Readable (fieldsOverall row memory) := by
  refine numbers_plain ?_
  simp only [List.forall_mem_cons]
  exact ⟨Decimal.numeral_fixed _ _, Decimal.numeral_digits _, Decimal.numeral_fixed _ _,
    Decimal.numeral_digits _, Decimal.numeral_digits _, Decimal.numeral_digits _,
    Decimal.numeral_digits _, fun _ h => nomatch h⟩

/-- A header, and the records behind it. -/
theorem table_plain {header : List (List Char)}
    (hheader : header ≠ [] ∧ ∀ field ∈ header, field ∈ headersOverall ++ headersRTT)
    {records : List (List (List Char))}
    (h : ∀ fields ∈ records, csvWrite fields = Csv.line fields ∧ Readable fields) :
    csvWrite header ++ records.flatMap csvWrite = Csv.table (header :: records) ∧
      ∀ row ∈ header :: records, Readable row := by
  have hfields : ∀ field ∈ header,
      fieldNeedsQuotes field = false ∧ ',' ∉ field ∧ '\n' ∉ field := fun field hfield =>
    headers_plain field (List.mem_cons_of_mem _ (hheader.2 field hfield))
  refine ⟨?_, List.forall_mem_cons.mpr ⟨⟨hheader.1, fun field hfield => ?_⟩, ?_⟩⟩
  · rw [csvWrite_eq fun field hfield => (hfields field hfield).1, Csv.table, List.flatMap_cons]
    exact congrArg (_ ++ ·) (List.flatMap_congr fun fields hmem => (h fields hmem).1)
  · exact ⟨(hfields field hfield).2.1, (hfields field hfield).2.2⟩
  · exact fun fields hmem => (h fields hmem).2

theorem rttText_plain (m : MetricsAggregator) :
    m.rttText = Csv.table (headersRTT :: m.recordsRTT.map fieldsRTT) ∧
      ∀ row ∈ headersRTT :: m.recordsRTT.map fieldsRTT, Readable row := by
  have hheader : headersRTT ≠ [] ∧
      ∀ field ∈ headersRTT, field ∈ headersOverall ++ headersRTT :=
    ⟨List.cons_ne_nil _ _, fun _ => List.mem_append_right _⟩
  have hrecords : ∀ fields ∈ m.recordsRTT.map fieldsRTT,
      csvWrite fields = Csv.line fields ∧ Readable fields := by
    intro fields hmem
    obtain ⟨rttMetric, -, rfl⟩ := List.mem_map.mp hmem
    exact fieldsRTT_plain rttMetric
  obtain ⟨htable, hreadable⟩ := table_plain hheader hrecords
  rw [List.flatMap_map] at htable
  exact ⟨htable, hreadable⟩

/-- The milliseconds have no more than three decimals. -/
theorem readRTTRecord_fieldsRTT {rttMetric : ℕ × ℚ} (h : rttMetric ∈ m.recordsRTT) :
    readRTTRecord (fieldsRTT rttMetric) = some rttMetric := by
  obtain ⟨metric, -, rfl⟩ := List.mem_map.mp h
  have hexact : ((metric.rtt.tdiv 1000 : ℤ) : ℚ) / 1000 * 10 ^ 3 = (metric.rtt.tdiv 1000 : ℤ) := by
    norm_num
  simp only [readRTTRecord, fieldsRTT, Decimal.readNat_digits,
    Decimal.readFixed_exact (by decide : 0 < 3) hexact, Option.pure_def, Option.bind_eq_bind,
    Option.bind_some]

theorem readRTTRecord_map (m : MetricsAggregator) :
    (m.recordsRTT.map fieldsRTT).map readRTTRecord = m.recordsRTT.map some := by
  rw [List.map_map]
  exact List.map_congr_left fun _ => readRTTRecord_fieldsRTT

theorem readRTT_rttText (m : MetricsAggregator) : readRTT m.rttText = m.recordsRTT.map some := by
  obtain ⟨htable, hreadable⟩ := rttText_plain m
  rw [readRTT, htable, Csv.readRecords_table hreadable, readRTTRecord_map]

/-- A file that was cut off. -/
theorem readRTT_prefix {text : List Char} (h : text <+: m.rttText) :
    readRTT text <+: m.recordsRTT.map some := by
  obtain ⟨htable, hreadable⟩ := rttText_plain m
  rw [readRTT, ← readRTTRecord_map]
  exact Csv.readRecords_of_prefix hreadable (htable ▸ h)

/-- What is read is the overall record: the counts as they are, the time and the rate to within
half a unit of their last decimal. -/
structure ReadsOverall (row : OverallRecord) (memory : ℕ) (text : List Char) : Prop where
  read : ∃ seconds throughput : ℚ, readOverall text =
      [some ({ row with totalTimeSeconds := seconds, throughputMbps := throughput }, memory)] ∧
    |seconds - row.totalTimeSeconds| ≤ 1 / 2 / 10 ^ 3 ∧
    |throughput - row.throughputMbps| ≤ 1 / 2 / 10 ^ 3

theorem readsOverall (m : MetricsAggregator) (memory : ℕ) :
    ReadsOverall m.recordOverall memory (m.overallText memory) := by
  have hheader : headersOverall ≠ [] ∧
      ∀ field ∈ headersOverall, field ∈ headersOverall ++ headersRTT :=
    ⟨List.cons_ne_nil _ _, fun _ => List.mem_append_left _⟩
  have hrecords : ∀ fields ∈ [fieldsOverall m.recordOverall memory],
      csvWrite fields = Csv.line fields ∧ Readable fields := by
    intro fields hmem
    rw [List.mem_singleton.mp hmem]
    exact fieldsOverall_plain _ memory
  obtain ⟨htable, hreadable⟩ := table_plain hheader hrecords
  rw [List.flatMap_singleton] at htable
  refine ⟨_, _, ?_, Decimal.abs_readFixed_sub_le 3 _, Decimal.abs_readFixed_sub_le 3 _⟩
  rw [readOverall, overallText, htable, Csv.readRecords_table hreadable]
  simp only [List.map_cons, List.map_nil, fieldsOverall, readOverallRecord,
    Decimal.readNat_digits, Decimal.readFixed_fixed (by decide : 0 < 3), Option.pure_def,
    Option.bind_eq_bind, Option.bind_some]

theorem mem_saveToCSV {memory : ℕ} {overallCreates rttCreates : Bool} {text : List Char} :
    (text ∈ (m.saveToCSV memory overallCreates rttCreates).1.1 → text = m.overallText memory) ∧
      (text ∈ (m.saveToCSV memory overallCreates rttCreates).1.2 → text = m.rttText) := by
  cases overallCreates <;> cases rttCreates <;> simp [saveToCSV, eq_comm]

/-! ### What is recorded -/

/-- The first `n` chunks were measured, and `fail` of them were wrong. -/
structure Measured (n fail : ℕ) (m : MetricsAggregator) : Prop where
  indices : m.chunkRTTs.map ChunkRTTMetric.chunkIndex = List.range n
  chunksSent : m.chunksSent = n
  counts : m.chunksVerifiedOK + m.chunksVerifiedFail = n
  chunksVerifiedFail : m.chunksVerifiedFail = fail

variable {n fail : ℕ}

theorem measured_startTimer (now : ℤ) : Measured 0 0 (new.startTimer now) := ⟨rfl, rfl, rfl, rfl⟩

theorem Measured.stopTimer (h : Measured n fail m) (now : ℤ) :
    Measured n fail (m.stopTimer now) := by
  unfold MetricsAggregator.stopTimer
  split
  · exact ⟨h.indices, h.chunksSent, h.counts, h.chunksVerifiedFail⟩
  · exact h

/-- The next chunk is measured and counted. -/
theorem Measured.record (h : Measured n fail m) (rtt : ℤ) (size : ℕ) (success : Bool) :
    Measured (n + 1) (if success then fail else fail + 1)
      (((m.recordChunkRTT n rtt).recordChunkProcessed size).recordChunkVerified success) := by
  have hindices : (m.chunkRTTs ++ [ChunkRTTMetric.mk n rtt]).map ChunkRTTMetric.chunkIndex =
      List.range (n + 1) := by
    rw [List.map_append, h.indices, List.range_succ]
    rfl
  have hcounts := h.counts
  cases success with
  | true =>
    refine ⟨hindices, congrArg Nat.succ h.chunksSent, ?_, h.chunksVerifiedFail⟩
    show m.chunksVerifiedOK + 1 + m.chunksVerifiedFail = n + 1
    omega
  | false =>
    refine ⟨hindices, congrArg Nat.succ h.chunksSent, ?_,
      congrArg Nat.succ h.chunksVerifiedFail⟩
    show m.chunksVerifiedOK + (m.chunksVerifiedFail + 1) = n + 1
    omega

end MetricsAggregator

/-! ### After any number of rounds -/

namespace Client

open MetricsAggregator (ReadsOverall readRTT)
open StateTransition (Reaches)

variable {σ : Type*} {host : Host σ} {c t : Client σ}

/-- The chunks that were measured are the first ones, and only the last of them can have been a
wrong one. -/
structure Measured (c : Client σ) : Prop where
  metrics : c.metricsAggregator.Measured c.metricsAggregator.chunksSent
    (if c.status = .aborted .verificationFailed then 1 else 0)
  running : c.status = .running → c.metricsAggregator.chunksSent = c.i

theorem Measured.of_metrics {n : ℕ} (h : c.metricsAggregator.Measured n
    (if c.status = .aborted .verificationFailed then 1 else 0))
    (hrun : c.status = .running → n = c.i) : c.Measured := by
  refine ⟨?_, fun hrunning => h.chunksSent.trans (hrun hrunning)⟩
  rw [h.chunksSent]
  exact h

theorem measured_start (disk : Disk) (chunkSize : ChunkSize) (conn : σ) :
    (start host disk chunkSize conn).Measured :=
  ⟨MetricsAggregator.measured_startTimer _, fun _ => rfl⟩

/-- The ways out of the loop. -/
theorem measured_leave {n : ℕ} (h : c.metricsAggregator.Measured n 0) :
    (leave host c).Measured :=
  .of_metrics (h.stopTimer (host.now c.conn).1) nofun

theorem measured_abort {n : ℕ} (why : Abort)
    (h : c.metricsAggregator.Measured n (if why = .verificationFailed then 1 else 0)) :
    (abort host c why).Measured := by
  refine .of_metrics (n := n) ?_ nofun
  simpa [abort, stopTimer] using h.stopTimer (host.now c.conn).1

theorem measured_exchange {n : ℕ} (h : c.metricsAggregator.Measured n 0) (hn : n = c.i)
    (hrun : c.status = .running) (chunkData : List UInt8) :
    (exchange host c chunkData).Measured := by
  unfold exchange
  split
  · exact .of_metrics h nofun
  next expectedReversedChunk _ =>
    dsimp only
    split
    next err conn _ => exact measured_abort (.writeFailed err) h
    next conn _ =>
      split
      next err conn _ => exact measured_abort (.responseFailed err) h
      next receivedData conn _ =>
        have hrecord := fun success => h.record ((host.now conn).1 - (host.now c.conn).1)
          chunkData.length success
        rw [hn] at hrecord
        by_cases hright : receivedData = expectedReversedChunk
        · simp only [hright, decide_true, Bool.not_true, Bool.false_eq_true, if_false]
          split
          · exact measured_leave (hrecord true)
          · refine .of_metrics (n := c.i + 1) ?_ fun _ => rfl
            simpa [hrun] using hrecord true
        · simp only [hright, decide_false, Bool.not_false, if_true]
          exact measured_abort .verificationFailed (hrecord false)

theorem measured_process {n : ℕ} (h : c.metricsAggregator.Measured n 0) (hn : n = c.i)
    (hrun : c.status = .running) (chunkData : List UInt8) :
    (process host c chunkData).Measured := by
  unfold process
  split_ifs
  · exact measured_leave h
  · exact measured_leave h
  · exact measured_exchange h hn hrun chunkData
  · exact measured_exchange h hn hrun chunkData

/-- A round measures and counts at most one chunk, the next one. -/
theorem measured_next (h : c.Measured) (ht : next host c = some t) : t.Measured := by
  have hmetrics := h.metrics
  have hrunning := h.running
  unfold next at ht
  split at ht
  · cases ht
  · cases ht
  next hrun =>
    rw [hrun] at hmetrics
    have hprocess := @measured_process _ host
      { c with chunkReader := c.chunkReader.readNextChunk.2 } _ hmetrics (hrunning hrun) hrun
    dsimp only at ht
    split at ht
    · cases ht
      exact hprocess _
    · split at ht <;> cases ht
      · exact measured_leave hmetrics
      · exact hprocess _
    next err _ _ =>
      cases ht
      exact measured_abort (.readFailed err) hmetrics

/-- After any number of rounds, over any connection and with any reads of the file, the files that
could be created give back the first chunks of the file, as many as were counted, and the overall
figures; the front part of a file gives back the first of these chunks. -/
theorem goFiles_readBack {disk : Disk} {chunkSize : ChunkSize} {conn : σ}
    (h : Reaches (next host) (start host disk chunkSize conn) c) (memory : ℕ)
    (overallCreates rttCreates : Bool) :
    let m := c.metricsAggregator
    let saved := (m.saveToCSV memory overallCreates rttCreates).1
    m.chunkRTTs.map ChunkRTTMetric.chunkIndex = List.range m.chunksSent ∧
    m.chunksSent = m.chunksVerifiedOK +
      (if c.status = .aborted .verificationFailed then 1 else 0) ∧
    (∀ text ∈ saved.2, readRTT text = m.recordsRTT.map some ∧
      ∀ front, front <+: text → readRTT front <+: m.recordsRTT.map some) ∧
    ∀ text ∈ saved.1, ReadsOverall m.recordOverall memory text := by
  intro m saved
  have hmeasured : c.Measured := Machine.invariant_reaches (fun _ _ => measured_next)
    (measured_start disk chunkSize conn) h
  refine ⟨hmeasured.metrics.indices, ?_, fun text htext => ?_, fun text htext => ?_⟩
  · rw [← hmeasured.metrics.chunksVerifiedFail]
    exact hmeasured.metrics.counts.symm
  · rw [MetricsAggregator.mem_saveToCSV.2 htext]
    exact ⟨MetricsAggregator.readRTT_rttText _, fun front => MetricsAggregator.readRTT_prefix⟩
  · rw [MetricsAggregator.mem_saveToCSV.1 htext]
    exact MetricsAggregator.readsOverall _ memory

/-- A file of one chunk, which is answered at once. -/
theorem goFiles_readBack_oneChunk :
    ∃ c, Reaches (next segmentHost) (start segmentHost (Disk.ofFile ⟨[7], by decide⟩)
        ⟨1, by decide, by decide⟩ (⟨[[0, 0, 0, 1, 7]], []⟩, ⟨fun _ => 0, 0⟩)) c ∧
      readRTT c.metricsAggregator.rttText = [some (0, 0)] := by
  have hnext : (next segmentHost (start segmentHost (Disk.ofFile ⟨[7], by decide⟩)
      ⟨1, by decide, by decide⟩ (⟨[[0, 0, 0, 1, 7]], []⟩, ⟨fun _ => 0, 0⟩))).map
        (fun c => c.metricsAggregator.recordsRTT) = some [(0, 0)] := by decide +kernel
  obtain ⟨c, hc, hrecords⟩ := Option.map_eq_some_iff.mp hnext
  have hreaches : Reaches (next segmentHost) _ c := .single hc
  obtain ⟨-, -, hrtt, -⟩ := goFiles_readBack hreaches 0 true true
  refine ⟨c, hreaches, ?_⟩
  have hread := (hrtt c.metricsAggregator.rttText rfl).1
  rwa [hrecords] at hread

end Client

end ReversalBench.GoTcp
