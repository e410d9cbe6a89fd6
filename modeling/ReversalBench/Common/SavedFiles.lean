import ReversalBench.Lib.Csv
import ReversalBench.Common.MetricsAggregator
import Mathlib.Algebra.Order.BigOperators.Group.List

/-! The files that the gRPC and Cap'n Proto clients save (`metrics_aggregator.cpp`,
`save_summary_csv` and `save_detailed_rtt_csv`), as text. Read as tables they give back the
figures, up to their last decimal, and the round-trip times. The figures are exact rational
numbers up to the text, for any square root. -/

namespace ReversalBench.Common.MetricsAggregator

open Csv (Plain Readable plain_numeral)
open Decimal (fixed readFixed readInt readNat)

/-! ### The figures -/

def getTotalPayloadSentMb (m : MetricsAggregator) : ℚ :=
  m.actualPayloadTransferredBytes / (1024 * 1024)

def getTotalDataOnWireMb (m : MetricsAggregator) : ℚ := m.totalOnWireBytes / (1024 * 1024)

def getThroughputPayloadMbps (m : MetricsAggregator) : ℚ :=
  if m.totalTransactionTimeMs = 0 then 0
  else
    let timeS : ℚ := m.totalTransactionTimeMs / 1000
    m.getTotalPayloadSentMb * 8 / timeS

def getThroughputOnWireMbps (m : MetricsAggregator) : ℚ :=
  if m.totalTransactionTimeMs = 0 then 0
  else
    let timeS : ℚ := m.totalTransactionTimeMs / 1000
    m.getTotalDataOnWireMb * 8 / timeS

def getAvgChunkRttMs (m : MetricsAggregator) : ℚ :=
  if m.chunkRttUs = [] then 0 else (m.chunkRttUs.sum : ℚ) / m.chunkRttUs.length / 1000

/-- `*std::min_element`. -/
def getMinChunkRttMs (m : MetricsAggregator) : ℚ :=
  match m.chunkRttUs.min? with
  | none => 0
  | some rttUs => rttUs / 1000

/-- `*std::max_element`. -/
def getMaxChunkRttMs (m : MetricsAggregator) : ℚ :=
  match m.chunkRttUs.max? with
  | none => 0
  | some rttUs => rttUs / 1000

def getStdDevChunkRttMs (sqrt : ℚ → ℚ) (m : MetricsAggregator) : ℚ :=
  if m.chunkRttUs.length < 2 then 0
  else
    let mean := m.getAvgChunkRttMs * 1000
    let sqSum := (m.chunkRttUs.map fun rttUs => ((rttUs : ℚ) - mean) * (rttUs - mean)).sum
    sqrt (sqSum / (m.chunkRttUs.length - 1)) / 1000

/-! ### The files -/

/-- A line of the summary: the name of the metric, its figure and its unit. -/
abbrev Figure := List Char × ℚ × List Char

/-- The figures that are saved with six decimals. -/
def figures (sqrt : ℚ → ℚ) (m : MetricsAggregator) : List Figure :=
  [("TotalTransactionTime".toList, (m.totalTransactionTimeMs : ℚ) / 1000, "s".toList),
    ("TotalPayloadSent".toList, m.getTotalPayloadSentMb, "MB".toList),
    ("TotalDataSentOnWire".toList, m.getTotalDataOnWireMb, "MB".toList),
    ("ProtocolOverheadSend".toList, m.getProtocolOverheadPercentage, "%".toList),
    ("ThroughputPayload_Mbps".toList, m.getThroughputPayloadMbps, "Mbps".toList),
    ("ThroughputPayload_Gbps".toList, m.getThroughputPayloadMbps / 1000, "Gbps".toList),
    ("ThroughputOnWire_Mbps".toList, m.getThroughputOnWireMbps, "Mbps".toList),
    ("ThroughputOnWire_Gbps".toList, m.getThroughputOnWireMbps / 1000, "Gbps".toList)] ++
  if m.chunkRttUs = [] then []
  else
    [("AvgChunkRTT".toList, m.getAvgChunkRttMs, "ms".toList),
      ("MinChunkRTT".toList, m.getMinChunkRttMs, "ms".toList),
      ("MaxChunkRTT".toList, m.getMaxChunkRttMs, "ms".toList),
      ("StdDevChunkRTT".toList, m.getStdDevChunkRttMs sqrt, "ms".toList)]

/-- The figures that are numbers of things. -/
def counts (m : MetricsAggregator) : List (List Char × ℕ) :=
  [("NumChunks".toList, m.getNumChunks), ("ErrorsEncountered".toList, m.errors.length)]

def figureCells (figure : Figure) : List (List Char) := [figure.1, fixed 6 figure.2.1, figure.2.2]

def countCells (count : List Char × ℕ) : List (List Char) :=
  [count.1, Nat.toDigits 10 count.2, []]

/-- What is written to the file of the summary. -/
def summaryText (sqrt : ℚ → ℚ) (protocolName : List Char) (m : MetricsAggregator) : List Char :=
  "Metric,Value,Unit\n".toList ++ (Csv.line ["Protocol".toList, protocolName, []] ++
    ((m.figures sqrt).flatMap (fun figure => Csv.line (figureCells figure)) ++
      m.counts.flatMap fun count => Csv.line (countCells count)))

/-- What is written to the file of the round-trip times; the chunks are numbered from 1 on. -/
def detailedRttText (m : MetricsAggregator) : List Char :=
  "ChunkNumber,RTT_us\n".toList ++
    m.chunkRttUs.zipIdx.flatMap fun rtt =>
      Csv.line [Nat.toDigits 10 (rtt.2 + 1), Decimal.int rtt.1]

/-- The text of the file, if it could be opened, and what is returned. -/
def saveSummaryCsv (sqrt : ℚ → ℚ) (protocolName : List Char) (m : MetricsAggregator)
    (opens : Bool) : Option (List Char) × Bool :=
  if !opens then (none, false) else (some (m.summaryText sqrt protocolName), true)

/-- Without round-trip times no file is opened. -/
def saveDetailedRttCsv (m : MetricsAggregator) (opens : Bool) : Option (List Char) × Bool :=
  if m.chunkRttUs = [] then (none, true)
  else if !opens then (none, false)
  else (some m.detailedRttText, true)

/-! ### Reading the files -/

/-- A line of the summary; its figure may be a word. -/
def readFigure : List (List Char) → Option (List Char × Option ℚ × List Char)
  | [name, value, unit] => some (name, readFixed value, unit)
  | _ => none

def readRtt : List (List Char) → Option (ℕ × ℤ)
  | [number, rtt] => do return (← readNat number, ← readInt rtt)
  | _ => none

variable {m : MetricsAggregator} {sqrt : ℚ → ℚ} {protocolName : List Char}

/-- The names and units of the figures. -/
def labels : List (List Char × List Char) :=
  [("TotalTransactionTime".toList, "s".toList), ("TotalPayloadSent".toList, "MB".toList),
    ("TotalDataSentOnWire".toList, "MB".toList), ("ProtocolOverheadSend".toList, "%".toList),
    ("ThroughputPayload_Mbps".toList, "Mbps".toList),
    ("ThroughputPayload_Gbps".toList, "Gbps".toList),
    ("ThroughputOnWire_Mbps".toList, "Mbps".toList),
    ("ThroughputOnWire_Gbps".toList, "Gbps".toList), ("AvgChunkRTT".toList, "ms".toList),
    ("MinChunkRTT".toList, "ms".toList), ("MaxChunkRTT".toList, "ms".toList),
    ("StdDevChunkRTT".toList, "ms".toList)]

theorem labels_figures (sqrt : ℚ → ℚ) (m : MetricsAggregator) :
    (m.figures sqrt).map (fun figure => (figure.1, figure.2.2)) <+: labels := by
  unfold figures
  split
  · exact ⟨labels.drop 8, rfl⟩
  · exact ⟨[], rfl⟩

theorem plain_labels : ∀ label ∈ labels,
    (',' ∉ label.1 ∧ '\n' ∉ label.1) ∧ ',' ∉ label.2 ∧ '\n' ∉ label.2 := by decide +kernel

theorem plain_nil : Plain [] := ⟨List.not_mem_nil, List.not_mem_nil⟩

theorem readable_figureCells {figure : Figure} (h : figure ∈ m.figures sqrt) :
    Readable (figureCells figure) := by
  have hlabel := (labels_figures sqrt m).subset (List.mem_map_of_mem h)
  obtain ⟨⟨hcomma, hnewline⟩, hcomma', hnewline'⟩ := plain_labels _ hlabel
  refine ⟨List.cons_ne_nil _ _, ?_⟩
  simp only [figureCells, List.forall_mem_cons]
  exact ⟨⟨hcomma, hnewline⟩, plain_numeral (Decimal.numeral_fixed _ _), ⟨hcomma', hnewline'⟩,
    fun _ h => nomatch h⟩

theorem readable_countCells {count : List Char × ℕ} (h : count ∈ m.counts) :
    Readable (countCells count) := by
  have hplain : ∀ name ∈ ["NumChunks".toList, "ErrorsEncountered".toList],
      ',' ∉ name ∧ '\n' ∉ name := by decide +kernel
  obtain ⟨hcomma, hnewline⟩ := hplain count.1 (List.mem_map_of_mem (f := Prod.fst) h)
  refine ⟨List.cons_ne_nil _ _, ?_⟩
  simp only [countCells, List.forall_mem_cons]
  exact ⟨⟨hcomma, hnewline⟩, plain_numeral (Decimal.numeral_digits _), plain_nil,
    fun _ h => nomatch h⟩

/-- The lines of the summary behind the header. -/
def summaryRows (sqrt : ℚ → ℚ) (protocolName : List Char) (m : MetricsAggregator) :
    List (List (List Char)) :=
  ["Protocol".toList, protocolName, []] ::
    ((m.figures sqrt).map figureCells ++ m.counts.map countCells)

def summaryHeader : List (List Char) := ["Metric".toList, "Value".toList, "Unit".toList]

theorem summaryText_eq : m.summaryText sqrt protocolName =
    Csv.table (summaryHeader :: m.summaryRows sqrt protocolName) := by
  have hheader : "Metric,Value,Unit\n".toList = Csv.line summaryHeader := by decide +kernel
  unfold summaryText summaryRows Csv.table
  rw [hheader, List.flatMap_cons, List.flatMap_cons, List.flatMap_append, List.flatMap_map,
    List.flatMap_map]

theorem readable_summaryRows (h : Plain protocolName) :
    ∀ row ∈ summaryHeader :: m.summaryRows sqrt protocolName, Readable row := by
  have hwords : ∀ word ∈ "Protocol".toList :: summaryHeader, ',' ∉ word ∧ '\n' ∉ word := by
    decide +kernel
  have hplain : ∀ word ∈ "Protocol".toList :: summaryHeader, Plain word := fun word hword =>
    ⟨(hwords word hword).1, (hwords word hword).2⟩
  rw [summaryRows, List.forall_mem_cons, List.forall_mem_cons]
  refine ⟨⟨List.cons_ne_nil _ _, fun word hword => hplain word (List.mem_cons_of_mem _ hword)⟩,
    ⟨List.cons_ne_nil _ _, ?_⟩, fun row hrow => ?_⟩
  · simp only [List.forall_mem_cons]
    exact ⟨hplain _ List.mem_cons_self, h, plain_nil, fun _ h => nomatch h⟩
  · rcases List.mem_append.mp hrow with hrow | hrow
    · obtain ⟨figure, hfigure, rfl⟩ := List.mem_map.mp hrow
      exact readable_figureCells hfigure
    · obtain ⟨count, hcount, rfl⟩ := List.mem_map.mp hrow
      exact readable_countCells hcount

/-- What a line of the summary is read as. -/
abbrev ReadFigure := Option (List Char × Option ℚ × List Char)

/-- A line gives back the name and the unit of a figure, and its value to within half a unit of
the last decimal. -/
def ReadBack (figure : Figure) (read : ReadFigure) : Prop :=
  ∃ value, read = some (figure.1, some value, figure.2.2) ∧
    |value - figure.2.1| ≤ 1 / 2 / 10 ^ 6

/-- A figure with the decimals that are saved. -/
def savedFigure (figure : Figure) : ReadFigure :=
  some (figure.1, some (Decimal.rounded 6 figure.2.1), figure.2.2)

/-- The number of things, as a figure without a unit. -/
def savedCount (count : List Char × ℕ) : ReadFigure := some (count.1, some (count.2 : ℚ), [])

theorem readBack_savedFigure (figure : Figure) : ReadBack figure (savedFigure figure) :=
  ⟨_, rfl, Decimal.abs_readFixed_sub_le 6 figure.2.1⟩

theorem readFigure_figureCells (figure : Figure) :
    readFigure (figureCells figure) = savedFigure figure := by
  simp only [readFigure, figureCells, savedFigure, Decimal.readFixed_fixed (by decide : 0 < 6)]

theorem readFigure_countCells (count : List Char × ℕ) :
    readFigure (countCells count) = savedCount count := by
  simp only [readFigure, countCells, savedCount, Decimal.readFixed_digits]

theorem readRecords_summaryText (h : Plain protocolName) :
    (Csv.readRecords readFigure (m.summaryText sqrt protocolName)).tail =
      (m.figures sqrt).map savedFigure ++ m.counts.map savedCount := by
  rw [summaryText_eq, Csv.readRecords_table (readable_summaryRows h), summaryRows, List.map_cons,
    List.tail_cons, List.map_append, List.map_map, List.map_map]
  congr 1
  · exact List.map_congr_left fun figure _ => readFigure_figureCells figure
  · exact List.map_congr_left fun count _ => readFigure_countCells count

/-! ### The round-trip times -/

def rttCells (rtt : ℤ × ℕ) : List (List Char) :=
  [Nat.toDigits 10 (rtt.2 + 1), Decimal.int rtt.1]

def rttHeader : List (List Char) := ["ChunkNumber".toList, "RTT_us".toList]

theorem detailedRttText_eq (m : MetricsAggregator) :
    m.detailedRttText = Csv.table (rttHeader :: m.chunkRttUs.zipIdx.map rttCells) := by
  have hheader : "ChunkNumber,RTT_us\n".toList = Csv.line rttHeader := by decide +kernel
  unfold detailedRttText Csv.table
  rw [hheader, List.flatMap_cons, List.flatMap_map]
  rfl

theorem readable_rttRows (m : MetricsAggregator) :
    ∀ row ∈ rttHeader :: m.chunkRttUs.zipIdx.map rttCells, Readable row := by
  have hheader : ∀ cell ∈ rttHeader, ',' ∉ cell ∧ '\n' ∉ cell := by decide +kernel
  refine List.forall_mem_cons.mpr ⟨⟨List.cons_ne_nil _ _, fun cell hcell => ?_⟩, ?_⟩
  · exact ⟨(hheader cell hcell).1, (hheader cell hcell).2⟩
  · intro row hrow
    obtain ⟨rtt, -, rfl⟩ := List.mem_map.mp hrow
    refine ⟨List.cons_ne_nil _ _, ?_⟩
    simp only [rttCells, List.forall_mem_cons]
    exact ⟨plain_numeral (Decimal.numeral_digits _), plain_numeral (Decimal.numeral_int _),
      fun _ h => nomatch h⟩

/-- The round-trip times under the numbers of their chunks. -/
def numbered (m : MetricsAggregator) : List (ℕ × ℤ) :=
  m.chunkRttUs.zipIdx.map fun rtt => (rtt.2 + 1, rtt.1)

theorem readRtt_rttCells (m : MetricsAggregator) :
    (m.chunkRttUs.zipIdx.map rttCells).map readRtt = m.numbered.map some := by
  rw [numbered, List.map_map, List.map_map]
  refine List.map_congr_left fun rtt _ => ?_
  simp only [Function.comp_apply, readRtt, rttCells, Decimal.readNat_digits, Decimal.readInt_int,
    Option.pure_def, Option.bind_eq_bind, Option.bind_some]

/-! ### The range of the round-trip times -/

/-- The average lies between the smallest and the largest. -/
theorem avgChunkRttMs_mem (h : m.chunkRttUs ≠ []) :
    m.getMinChunkRttMs ≤ m.getAvgChunkRttMs ∧ m.getAvgChunkRttMs ≤ m.getMaxChunkRttMs := by
  obtain ⟨low, hlow⟩ := Option.isSome_iff_exists.mp (List.isSome_min?_of_ne_nil h)
  obtain ⟨high, hhigh⟩ := Option.isSome_iff_exists.mp (List.isSome_max?_of_ne_nil h)
  have hbelow := (List.min?_eq_some_iff.mp hlow).2
  have habove := (List.max?_eq_some_iff.mp hhigh).2
  have hlength : (0 : ℚ) < m.chunkRttUs.length := by exact_mod_cast List.length_pos_of_ne_nil h
  have hsumLow : (m.chunkRttUs.length * low : ℤ) ≤ m.chunkRttUs.sum := by
    simpa using m.chunkRttUs.card_nsmul_le_sum low hbelow
  have hsumHigh : m.chunkRttUs.sum ≤ (m.chunkRttUs.length * high : ℤ) := by
    simpa using m.chunkRttUs.sum_le_card_nsmul high habove
  have hcastLow : (m.chunkRttUs.length : ℚ) * low ≤ m.chunkRttUs.sum := by exact_mod_cast hsumLow
  have hcastHigh : (m.chunkRttUs.sum : ℚ) ≤ m.chunkRttUs.length * high := by
    exact_mod_cast hsumHigh
  simp only [getMinChunkRttMs, getMaxChunkRttMs, getAvgChunkRttMs, hlow, hhigh, h, if_false]
  constructor
  · refine div_le_div_of_nonneg_right ?_ (by norm_num)
    rw [le_div_iff₀ hlength, mul_comm]
    exact hcastLow
  · refine div_le_div_of_nonneg_right ?_ (by norm_num)
    rw [div_le_iff₀ hlength, mul_comm]
    exact hcastHigh

/-- The three times are among the figures. -/
theorem mem_figures (h : m.chunkRttUs ≠ []) :
    ("MinChunkRTT".toList, m.getMinChunkRttMs, "ms".toList) ∈ m.figures sqrt ∧
    ("AvgChunkRTT".toList, m.getAvgChunkRttMs, "ms".toList) ∈ m.figures sqrt ∧
    ("MaxChunkRTT".toList, m.getMaxChunkRttMs, "ms".toList) ∈ m.figures sqrt := by
  rw [figures, if_neg h]
  refine ⟨List.mem_append_right _ ?_, List.mem_append_right _ ?_, List.mem_append_right _ ?_⟩
  · exact List.mem_cons_of_mem _ List.mem_cons_self
  · exact List.mem_cons_self
  · exact List.mem_cons_of_mem _ (List.mem_cons_of_mem _ List.mem_cons_self)

/-- What the lines of the summary give back: the figures up to their last decimal, the counts as
they are, and an average time between the smallest and the largest. -/
structure ReadsSummary (sqrt : ℚ → ℚ) (m : MetricsAggregator) (lines : List ReadFigure) :
    Prop where
  figures : List.Forall₂ ReadBack (m.figures sqrt) (lines.take (m.figures sqrt).length)
  counts : lines.drop (m.figures sqrt).length = m.counts.map savedCount
  ordered : m.chunkRttUs ≠ [] → ∃ low avg high : ℚ,
    some ("MinChunkRTT".toList, some low, "ms".toList) ∈ lines ∧
    some ("AvgChunkRTT".toList, some avg, "ms".toList) ∈ lines ∧
    some ("MaxChunkRTT".toList, some high, "ms".toList) ∈ lines ∧ low ≤ avg ∧ avg ≤ high

theorem readsSummary (sqrt : ℚ → ℚ) (m : MetricsAggregator) :
    ReadsSummary sqrt m ((m.figures sqrt).map savedFigure ++ m.counts.map savedCount) where
  figures := by
    rw [List.take_left' (List.length_map _), List.forall₂_map_right_iff]
    exact List.forall₂_same.mpr fun _ _ => readBack_savedFigure _
  counts := List.drop_left' (List.length_map _)
  ordered h := by
    obtain ⟨hmin, hmax⟩ := avgChunkRttMs_mem h
    have hsaved : ∀ {figure : Figure}, figure ∈ m.figures sqrt →
        savedFigure figure ∈ (m.figures sqrt).map savedFigure ++ m.counts.map savedCount :=
      fun hfigure => List.mem_append_left _ (List.mem_map_of_mem hfigure)
    obtain ⟨hlow, havg, hhigh⟩ := @mem_figures m sqrt h
    exact ⟨_, _, _, hsaved hlow, hsaved havg, hsaved hhigh, Decimal.rounded_mono 6 hmin,
      Decimal.rounded_mono 6 hmax⟩

theorem mem_saveSummaryCsv {opens : Bool} {text : List Char}
    (h : text ∈ (m.saveSummaryCsv sqrt protocolName opens).1) :
    text = m.summaryText sqrt protocolName := by
  cases opens <;> simp_all [saveSummaryCsv, eq_comm]

theorem mem_saveDetailedRttCsv {opens : Bool} {text : List Char}
    (h : text ∈ (m.saveDetailedRttCsv opens).1) : text = m.detailedRttText := by
  unfold saveDetailedRttCsv at h
  split at h
  · cases h
  · cases opens <;> simp_all [eq_comm]

/-- Whatever was recorded, the lines of the summary give back its figures and counts, the average
time between the smallest and the largest; the other file gives back the times under the numbers of
their chunks, and the front part of it the first of these. -/
theorem summaryFiles_readBack (m : MetricsAggregator) (sqrt : ℚ → ℚ) (h : Plain protocolName)
    (summaryOpens rttOpens : Bool) :
    (∀ text ∈ (m.saveSummaryCsv sqrt protocolName summaryOpens).1,
      ReadsSummary sqrt m (Csv.readRecords readFigure text).tail) ∧
    (∀ text ∈ (m.saveDetailedRttCsv rttOpens).1,
      Csv.readRecords readRtt text = m.numbered.map some ∧
      ∀ front, front <+: text → Csv.readRecords readRtt front <+: m.numbered.map some) := by
  refine ⟨fun text htext => ?_, fun text htext => ?_⟩
  · rw [mem_saveSummaryCsv htext, readRecords_summaryText h]
    exact readsSummary sqrt m
  · rw [mem_saveDetailedRttCsv htext, detailedRttText_eq, ← readRtt_rttCells]
    exact ⟨Csv.readRecords_table (readable_rttRows m),
      fun front => Csv.readRecords_of_prefix (readable_rttRows m)⟩

/-- Two samples of the gRPC client. -/
theorem summaryFiles_readBack_two :
    let m := (new.recordChunkRttUs 40).recordChunkRttUs 7
    Csv.readRecords readRtt m.detailedRttText = [some (1, 40), some (2, 7)] ∧
      ReadsSummary id m (Csv.readRecords readFigure (m.summaryText id "gRPC".toList)).tail := by
  have hplain : Plain "gRPC".toList := ⟨by decide +kernel, by decide +kernel⟩
  obtain ⟨hsummary, hrtt⟩ := summaryFiles_readBack ((new.recordChunkRttUs 40).recordChunkRttUs 7)
    id hplain true true
  exact ⟨(hrtt _ rfl).1, hsummary _ rfl⟩

end ReversalBench.Common.MetricsAggregator
